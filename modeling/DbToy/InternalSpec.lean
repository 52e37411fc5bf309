import DbToy.InternalNode
import DbToy.Lib.Slots

/-!
# What the internal operations do to keys and children

An internal node's keys and children are two lists, the second longer by one.  Insertion cuts the
keys at the new key and puts the right child behind the left one (`insert_spec`,
`insert_empty_spec`); a split does the same, cuts both lists, and takes the key between the two
halves out (`insertAndSplit_spec`).

As for leaves, the loops are described place by place (`insertLoop_spec`, `moveLoop_spec`).
-/

namespace DbToy

open Bytes Slots

namespace InternalNode

/-! ## Geometry -/

lemma pageMax_eq : pageMax = 338 := rfl

/-- The node does not claim more room than its page has. -/
def WF (n : InternalNode) : Prop := n.numMaxKeys ≤ pageMax

lemma childPos_eq {i : ℕ} (h : i ≤ pageMax) : childPos i = 14 + i * 12 := by
  rw [pageMax_eq] at h
  simp only [childPos, internalNodeHeaderSize, commonNodeHeaderSize, internalNodeChildSize,
    internalNodeKeySize]
  rw [Nat.mod_eq_of_lt (by omega)]

lemma keyPos_eq {i : ℕ} (h : i ≤ pageMax) : keyPos i = 22 + i * 12 := by
  show childPos i + internalNodeChildSize = _
  rw [childPos_eq h, internalNodeChildSize]
  omega

/-- The key at a place, whether or not it is in use. -/
def keyAt (n : InternalNode) (i : ℕ) : UInt32 := UInt32.ofNat (decodeLE (n.data.get (keyPos i) 4))

def childAt (n : InternalNode) (i : ℕ) : ℕ := decodeLE (n.data.get (childPos i) 8)

def keys (n : InternalNode) : List UInt32 := slots n.numKeys n.keyAt

def children (n : InternalNode) : List ℕ := slots (n.numKeys + 1) n.childAt

@[simp] lemma length_keys (n : InternalNode) : n.keys.length = n.numKeys := length_slots _ _

@[simp] lemma length_children (n : InternalNode) : n.children.length = n.numKeys + 1 :=
  length_slots _ _

lemma childAt_lt (n : InternalNode) {i : ℕ} (h : i ≤ pageMax) : n.childAt i < 2 ^ 64 := by
  have hlt := decodeLE_lt (n.data.get (childPos i) 8)
  rw [Page.length_get] at hlt
  · exact lt_of_lt_of_eq hlt (by decide)
  · rw [childPos_eq h]
    rw [pageMax_eq] at h
    simp only [pageSize]
    omega

/-- What no operation on keys and children changes. -/
structure SameHeader (n n' : InternalNode) : Prop where
  numMaxKeys : n'.numMaxKeys = n.numMaxKeys
  nodeType : n'.data.nodeType = n.data.nodeType
  isRoot : n'.data.isRoot = n.data.isRoot
  parent : n'.data.parent = n.data.parent

lemma SameHeader.refl (n : InternalNode) : SameHeader n n := ⟨rfl, rfl, rfl, rfl⟩

lemma SameHeader.trans {a b c : InternalNode} (h₁ : SameHeader a b) (h₂ : SameHeader b c) :
    SameHeader a c :=
  ⟨h₂.1.trans h₁.1, h₂.2.trans h₁.2, h₂.3.trans h₁.3, h₂.4.trans h₁.4⟩

lemma SameHeader.wf {n n' : InternalNode} (h : SameHeader n n') (hn : n.WF) : n'.WF := by
  rw [WF, h.numMaxKeys]; exact hn

lemma sameHeader_set (n : InternalNode) {off : ℕ} (bs : List UInt8)
    (h : commonNodeHeaderSize ≤ off) : SameHeader n { n with data := n.data.set off bs } := by
  obtain ⟨h₁, h₂, h₃⟩ := n.data.header_set bs h
  exact ⟨rfl, h₁, h₂, h₃⟩

/-- Two pages with the same body hold the same keys and children. -/
lemma keys_congr {p q : Page} (h : p.body = q.body) : (load p).keys = (load q).keys := by
  have hnum : (load p).numKeys = (load q).numKeys := Page.u32_congr h le_rfl
  have hle : commonNodeHeaderSize ≤ internalNodeHeaderSize := by decide
  rw [keys, keys, hnum]
  refine slots_congr ?_
  intro i _
  rw [keyAt, keyAt]
  refine congrArg (fun bs => UInt32.ofNat (decodeLE bs)) (Page.get_congr h ?_ 4)
  exact Nat.le_add_right_of_le (Nat.le_add_right_of_le hle)

lemma children_congr {p q : Page} (h : p.body = q.body) :
    (load p).children = (load q).children := by
  have hnum : (load p).numKeys = (load q).numKeys := Page.u32_congr h le_rfl
  have hle : commonNodeHeaderSize ≤ internalNodeHeaderSize := by decide
  rw [children, children, hnum]
  refine slots_congr ?_
  intro i _
  rw [childAt, childAt]
  exact congrArg decodeLE (Page.get_congr h (Nat.le_add_right_of_le hle) 8)

/-! ## Reading and writing one place -/

/-- The node with key `i` replaced. -/
def putKey (n : InternalNode) (i : ℕ) (key : UInt32) : InternalNode :=
  { n with data := n.data.set (keyPos i) (encodeLE 4 key.toNat) }

/-- The node with child `i` replaced. -/
def putChild (n : InternalNode) (i : ℕ) (child : ℕ) : InternalNode :=
  { n with data := n.data.set (childPos i) (encodeLE 8 child) }

section Access

variable {n : InternalNode} (hn : n.WF) {i : ℕ}

include hn

lemma getKey_of_lt (hi : i < n.numMaxKeys) : n.getKey i = .ok (n.keyAt i) := by
  have hle : i ≤ pageMax := le_trans (le_of_lt hi) hn
  have hlt : i < pageMax := lt_of_lt_of_le hi hn
  rw [getKey, assertThat_of hi, ok_bind, Page.load_of_le, ok_bind]
  · rfl
  · rw [keyPos_eq hle]
    rw [pageMax_eq] at hlt
    simp only [pageSize]
    omega

lemma getChild_of_le (hi : i ≤ n.numMaxKeys) : n.getChild i = .ok (n.childAt i) := by
  have hle : i ≤ pageMax := le_trans hi hn
  rw [getChild, assertThat_of hi, ok_bind, Page.load_of_le, ok_bind]
  · rfl
  · rw [childPos_eq hle]
    rw [pageMax_eq] at hle
    simp only [pageSize]
    omega

lemma setKey_of_lt (hi : i < n.numMaxKeys) (key : UInt32) :
    n.setKey i key = .ok (n.putKey i key) := by
  have hle : i ≤ pageMax := le_trans (le_of_lt hi) hn
  have hlt : i < pageMax := lt_of_lt_of_le hi hn
  rw [setKey, assertThat_of hi, ok_bind, Page.store_of_le, ok_bind]
  · rfl
  · rw [keyPos_eq hle, length_encodeLE]
    rw [pageMax_eq] at hlt
    simp only [pageSize]
    omega

lemma setChild_of_le (hi : i ≤ n.numMaxKeys) (child : ℕ) :
    n.setChild i child = .ok (n.putChild i child) := by
  have hle : i ≤ pageMax := le_trans hi hn
  rw [setChild, assertThat_of hi, ok_bind, Page.store_of_le, ok_bind]
  · rfl
  · rw [childPos_eq hle, length_encodeLE]
    rw [pageMax_eq] at hle
    simp only [pageSize]
    omega

end Access

section Put

variable (n : InternalNode) {i : ℕ} (key : UInt32) (child : ℕ)

@[simp] lemma numMaxKeys_putKey : (n.putKey i key).numMaxKeys = n.numMaxKeys := rfl

@[simp] lemma numMaxKeys_putChild : (n.putChild i child).numMaxKeys = n.numMaxKeys := rfl

variable (hi : i ≤ pageMax)

include hi

lemma sameHeader_putKey : SameHeader n (n.putKey i key) :=
  n.sameHeader_set _ (by rw [keyPos_eq hi, commonNodeHeaderSize]; omega)

lemma sameHeader_putChild : SameHeader n (n.putChild i child) :=
  n.sameHeader_set _ (by rw [childPos_eq hi, commonNodeHeaderSize]; omega)

lemma numKeys_putKey : (n.putKey i key).numKeys = n.numKeys := by
  rw [numKeys, numKeys, Page.u32, Page.u32, putKey,
    Page.get_set_of_disjoint (length_encodeLE _ _) _ (by decide)]
  exact Or.inl (by rw [keyPos_eq hi, internalNodeNumKeysOffset, commonNodeHeaderSize]; omega)

lemma numKeys_putChild : (n.putChild i child).numKeys = n.numKeys := by
  rw [numKeys, numKeys, Page.u32, Page.u32, putChild,
    Page.get_set_of_disjoint (length_encodeLE _ _) _ (by decide)]
  exact Or.inl (by rw [childPos_eq hi, internalNodeNumKeysOffset, commonNodeHeaderSize]; omega)

variable {j : ℕ}

lemma keyAt_putKey (hj : j < pageMax) :
    (n.putKey i key).keyAt j = if j = i then key else n.keyAt j := by
  have hfit : 22 + j * 12 + 4 ≤ pageSize := by
    rw [pageMax_eq] at hj; simp only [pageSize]; omega
  rw [keyAt, keyAt, keyPos_eq (le_of_lt hj), putKey, keyPos_eq hi]
  split_ifs with h
  · subst h
    rw [Page.get_set_same (length_encodeLE _ _) hfit,
      decodeLE_encodeLE_of_lt (by simpa using key.toNat_lt), UInt32.ofNat_toNat]
  · rw [Page.get_set_of_disjoint (length_encodeLE _ _) (by omega) hfit]

lemma childAt_putKey (hj : j ≤ pageMax) : (n.putKey i key).childAt j = n.childAt j := by
  have hfit : 14 + j * 12 + 8 ≤ pageSize := by
    rw [pageMax_eq] at hj; simp only [pageSize]; omega
  rw [childAt, childAt, childPos_eq hj, putKey, keyPos_eq hi,
    Page.get_set_of_disjoint (length_encodeLE _ _) (by omega) hfit]

lemma keyAt_putChild (hj : j < pageMax) : (n.putChild i child).keyAt j = n.keyAt j := by
  have hfit : 22 + j * 12 + 4 ≤ pageSize := by
    rw [pageMax_eq] at hj; simp only [pageSize]; omega
  rw [keyAt, keyAt, keyPos_eq (le_of_lt hj), putChild, childPos_eq hi,
    Page.get_set_of_disjoint (length_encodeLE _ _) (by omega) hfit]

lemma childAt_putChild (hc : child < 2 ^ 64) (hj : j ≤ pageMax) :
    (n.putChild i child).childAt j = if j = i then child else n.childAt j := by
  have hfit : 14 + j * 12 + 8 ≤ pageSize := by
    rw [pageMax_eq] at hj; simp only [pageSize]; omega
  rw [childAt, childAt, childPos_eq hj, putChild, childPos_eq hi]
  split_ifs with h
  · subst h
    rw [Page.get_set_same (length_encodeLE _ _) hfit,
      decodeLE_encodeLE_of_lt (by simpa using hc)]
  · rw [Page.get_set_of_disjoint (length_encodeLE _ _) (by omega) hfit]

end Put

/-- Raising or lowering the number of keys moves nothing. -/
lemma setNumKeys_spec (n : InternalNode) {v : ℕ} (hv : v < 2 ^ 32) :
    SameHeader n (n.setNumKeys v) ∧ (n.setNumKeys v).numKeys = v ∧
      (∀ j < pageMax, (n.setNumKeys v).keyAt j = n.keyAt j) ∧
      ∀ j ≤ pageMax, (n.setNumKeys v).childAt j = n.childAt j := by
  have hnum : internalNodeNumKeysOffset + 4 = 14 := rfl
  refine ⟨n.sameHeader_set _ (by decide), Page.u32_setU32 (by decide) hv, ?_, ?_⟩
  · intro j hj
    have hfit : 22 + j * 12 + 4 ≤ pageSize := by
      rw [pageMax_eq] at hj; simp only [pageSize]; omega
    rw [keyAt, keyAt, keyPos_eq (le_of_lt hj), setNumKeys, Page.setU32,
      Page.get_set_of_disjoint (length_encodeLE _ _) (by omega) hfit]
  · intro j hj
    have hfit : 14 + j * 12 + 8 ≤ pageSize := by
      rw [pageMax_eq] at hj; simp only [pageSize]; omega
    rw [childAt, childAt, childPos_eq hj, setNumKeys, Page.setU32,
      Page.get_set_of_disjoint (length_encodeLE _ _) (by omega) hfit]

/-- A key and a child written one after the other. -/
lemma put_spec (n : InternalNode) {a b : ℕ} (ha : a ≤ pageMax) (hb : b ≤ pageMax) (key : UInt32)
    {child : ℕ} (hc : child < 2 ^ 64) :
    SameHeader n ((n.putKey a key).putChild b child) ∧
      ((n.putKey a key).putChild b child).numKeys = n.numKeys ∧
      (∀ j < pageMax, ((n.putKey a key).putChild b child).keyAt j
        = if j = a then key else n.keyAt j) ∧
      ∀ j ≤ pageMax, ((n.putKey a key).putChild b child).childAt j
        = if j = b then child else n.childAt j := by
  refine ⟨(n.sameHeader_putKey key ha).trans ((n.putKey a key).sameHeader_putChild child hb), ?_,
    ?_, ?_⟩
  · rw [numKeys_putChild _ _ hb, numKeys_putKey _ _ ha]
  · intro j hj
    rw [keyAt_putChild _ _ hb hj, keyAt_putKey _ _ ha hj]
  · intro j hj
    rw [childAt_putChild _ _ hb hc hj, childAt_putKey _ _ ha hj]

/-! ## Insertion -/

/-- The loop stops at the cut `p`; the keys from there on and their right children have moved up
by one. -/
lemma insertLoop_spec (key : UInt32) (p : ℕ) : ∀ (i : ℕ) {n : InternalNode}, n.WF → p ≤ i →
    i < n.numMaxKeys → (∀ j, p ≤ j → j < i → key < n.keyAt j) →
    (0 < p → n.keyAt (p - 1) < key) →
    ∃ n', insertLoop key i n = .ok (p, n') ∧ SameHeader n n' ∧ n'.numKeys = n.numKeys ∧
      (∀ j < pageMax, n'.keyAt j = if p < j ∧ j ≤ i then n.keyAt (j - 1) else n.keyAt j) ∧
      ∀ j ≤ pageMax,
        n'.childAt j = if p + 1 < j ∧ j ≤ i + 1 then n.childAt (j - 1) else n.childAt j := by
  intro i
  induction i with
  | zero =>
      intro n hn hp _ _ _
      obtain rfl : p = 0 := by omega
      exact ⟨n, rfl, .refl n, rfl, fun j _ => by rw [if_neg (by omega)],
        fun j _ => by rw [if_neg (by omega)]⟩
  | succ i ih =>
      intro n hn hp hi hgt hlt
      have hmax : n.numMaxKeys ≤ pageMax := hn
      rw [insertLoop, getKey_of_lt hn (by omega), ok_bind]
      rcases Nat.lt_or_ge i p with hpi | hpi
      · -- the key below is the last one of the front
        obtain rfl : p = i + 1 := by omega
        have hk := hlt (by omega)
        rw [Nat.add_sub_cancel] at hk
        rw [if_neg (not_le_of_gt hk)]
        exact ⟨n, rfl, .refl n, rfl, fun j _ => by rw [if_neg (by omega)],
          fun j _ => by rw [if_neg (by omega)]⟩
      · have hk := hgt i hpi (by omega)
        have hn₁ := (n.sameHeader_putKey (n.keyAt i) (show i + 1 ≤ pageMax by omega)).wf hn
        obtain ⟨hh, hc, hkey, hchild⟩ := n.put_spec (show i + 1 ≤ pageMax by omega)
          (show i + 2 ≤ pageMax by omega) (n.keyAt i)
          (n.childAt_lt (show i + 1 ≤ pageMax by omega))
        rw [if_pos (le_of_lt hk), assertThat_of (ne_of_gt hk), ok_bind, setKey_of_lt hn hi, ok_bind,
          getChild_of_le hn₁ (le_of_lt hi), ok_bind, childAt_putKey _ _ (by omega) (by omega),
          setChild_of_le hn₁ hi, ok_bind]
        obtain ⟨n', e, hh', hc', hkey', hchild'⟩ := ih (hh.wf hn) hpi
          (by rw [hh.numMaxKeys]; omega)
          (fun j hpj hj => by
            rw [hkey j (by omega), if_neg (by omega)]; exact hgt j hpj (by omega))
          (fun h0 => by rw [hkey _ (by omega), if_neg (by omega)]; exact hlt h0)
        refine ⟨n', e, hh.trans hh', hc'.trans hc, ?_, ?_⟩
        · intro j hj
          rw [hkey' j hj, hkey j hj, hkey (j - 1) (by omega)]
          split_ifs <;> first | rfl | omega | (congr 1; omega)
        · intro j hj
          rw [hchild' j hj, hchild j hj, hchild (j - 1) (by omega)]
          split_ifs <;> first | rfl | omega | (congr 1; omega)

/-- What the cut of the keys says about the key at each place. -/
lemma cut_spec {n : InternalNode} {key : UInt32} {A B : List UInt32} (hkeys : n.keys = A ++ B)
    (hA : ∀ k ∈ A, k < key) (hB : ∀ k ∈ B, key < k) :
    A.length + B.length = n.numKeys ∧ (∀ j < A.length, n.keyAt j < key) ∧
      ∀ j, A.length ≤ j → j < n.numKeys → key < n.keyAt j := by
  have hlen : A.length + B.length = n.numKeys := by
    rw [← List.length_append, ← hkeys, length_keys]
  have hget : ∀ j < n.numKeys, (A ++ B)[j]? = some (n.keyAt j) := by
    intro j hj
    rw [← hkeys, keys, getElem?_slots, if_pos hj]
  refine ⟨hlen, fun j hj => hA _ ?_, fun j hj hj' => hB _ ?_⟩
  · have h := hget j (by omega)
    rw [List.getElem?_append_left hj] at h
    exact List.mem_of_getElem? h
  · have h := hget j hj'
    rw [List.getElem?_append_right hj] at h
    exact List.mem_of_getElem? h

/-- The child before the cut of the children. -/
lemma childAt_cut {n : InternalNode} {left : ℕ} {C D : List ℕ}
    (hchildren : n.children = C ++ left :: D) : n.childAt C.length = left := by
  have hlen := congrArg List.length hchildren
  simp only [length_children, List.length_append, List.length_cons] at hlen
  have h : n.children[C.length]? = some left := by
    rw [hchildren, List.getElem?_append_right le_rfl, Nat.sub_self]; rfl
  rw [children, getElem?_slots, if_pos (by omega)] at h
  exact Option.some.inj h

lemma getChild_cut {n : InternalNode} (hn : n.WF) (hle : n.numKeys ≤ n.numMaxKeys) {left : ℕ}
    {C D : List ℕ} (hchildren : n.children = C ++ left :: D) : n.getChild C.length = .ok left := by
  have hlen := congrArg List.length hchildren
  simp only [length_children, List.length_append, List.length_cons] at hlen
  rw [getChild_of_le hn (by omega), childAt_cut hchildren]

/-- The first key of an empty node, with the children on its two sides. -/
theorem insert_empty_spec {n : InternalNode} (hn : n.WF) (key : UInt32) {left right : ℕ}
    (hempty : n.numKeys = 0) (hroom : 0 < n.numMaxKeys) (hleft : left < 2 ^ 64)
    (hright : right < 2 ^ 64) :
    ∃ n', n.insert key left right = .ok n' ∧ n'.keys = [key] ∧ n'.children = [left, right] ∧
      SameHeader n n' := by
  have hmax : n.numMaxKeys ≤ pageMax := hn
  obtain ⟨hh₁, hc₁, -, -⟩ := n.setNumKeys_spec (show n.numKeys + 1 < 2 ^ 32 by omega)
  set n₁ := n.setNumKeys (n.numKeys + 1)
  have hn₁ : n₁.WF := hh₁.wf hn
  have hm₁ : n₁.numMaxKeys = n.numMaxKeys := hh₁.numMaxKeys
  have hh₂ := n₁.sameHeader_putChild left (Nat.zero_le pageMax)
  have hc₂ := n₁.numKeys_putChild left (Nat.zero_le pageMax)
  have hn₂ : (n₁.putChild 0 left).WF := hh₂.wf hn₁
  obtain ⟨hh, hc, hkey, hchild⟩ := (n₁.putChild 0 left).put_spec (Nat.zero_le pageMax)
    (show 1 ≤ pageMax by omega) key hright
  have hn₃ := ((n₁.putChild 0 left).sameHeader_putKey key (Nat.zero_le pageMax)).wf hn₂
  refine ⟨((n₁.putChild 0 left).putKey 0 key).putChild 1 right, ?_, ?_, ?_,
    hh₁.trans (hh₂.trans hh)⟩
  · rw [insert]
    simp only [if_pos hempty]
    rw [setChild_of_le hn₁ (Nat.zero_le _), ok_bind, setKey_of_lt hn₂ (by simpa [hm₁] using hroom),
      ok_bind, setChild_of_le hn₃ (by
        simp only [numMaxKeys_putKey, numMaxKeys_putChild, hm₁]; exact hroom)]
  · rw [keys, hc, hc₂, hc₁, hempty]
    simp [slots, hkey 0 (by decide)]
  · rw [children, hc, hc₂, hc₁, hempty]
    simp [slots, List.range_succ, hchild 1 (by decide), hchild 0 (by decide),
      childAt_putChild n₁ left (Nat.zero_le _) hleft (Nat.zero_le _)]

/-- **Insertion is sorted insertion**: the key goes where it cuts the keys, and its right child
behind its left one. -/
theorem insert_spec {n : InternalNode} (hn : n.WF) {key : UInt32} {left right : ℕ}
    {A B : List UInt32} {C D : List ℕ} (hkeys : n.keys = A ++ B) (hA : ∀ k ∈ A, k < key)
    (hB : ∀ k ∈ B, key < k) (hchildren : n.children = C ++ left :: D)
    (hpos : C.length = A.length) (hne : 0 < n.numKeys) (hroom : n.numKeys < n.numMaxKeys)
    (hright : right < 2 ^ 64) :
    ∃ n', n.insert key left right = .ok n' ∧ n'.keys = A ++ key :: B ∧
      n'.children = C ++ left :: right :: D ∧ SameHeader n n' := by
  obtain ⟨hlen, hlt, hgt⟩ := cut_spec hkeys hA hB
  have hleft := childAt_cut hchildren
  have hmax : n.numMaxKeys ≤ pageMax := hn
  have hpm := pageMax_eq
  obtain ⟨hh₁, hc₁, hk₁, hd₁⟩ := n.setNumKeys_spec (show n.numKeys + 1 < 2 ^ 32 by omega)
  set n₁ := n.setNumKeys (n.numKeys + 1) with hn₁
  obtain ⟨n₂, e₂, hh₂, hc₂, hk₂, hd₂⟩ := insertLoop_spec key A.length n.numKeys (hh₁.wf hn)
    (by omega) (by rw [hh₁.numMaxKeys]; exact hroom)
    (fun j hj hj' => by rw [hk₁ j (by omega)]; exact hgt j hj hj')
    (fun h0 => by rw [hk₁ _ (by omega)]; exact hlt _ (by omega))
  have hh := hh₁.trans hh₂
  have hw₂ := hh.wf hn
  have hm₂ : n₂.numMaxKeys = n.numMaxKeys := hh.numMaxKeys
  obtain ⟨hh₃, hc₃, hk₃, hd₃⟩ := n₂.put_spec (show A.length ≤ pageMax by omega)
    (show A.length + 1 ≤ pageMax by omega) key hright
  have hw := (n₂.sameHeader_putKey key (show A.length ≤ pageMax by omega)).wf hw₂
  have hw₃ := hh₃.wf hw₂
  refine ⟨(n₂.putKey A.length key).putChild (A.length + 1) right, ?_, ?_, ?_, hh.trans hh₃⟩
  · have hc : ((n₂.putKey A.length key).putChild (A.length + 1) right).childAt A.length
        = left := by
      rw [hd₃ _ (by omega), if_neg (by omega), hd₂ _ (by omega), if_neg (by omega),
        hd₁ _ (by omega), ← hpos]
      exact hleft
    rw [insert]
    simp only [if_neg (Nat.ne_of_gt hne), ← hn₁, e₂, ok_bind]
    rw [setKey_of_lt hw₂ (by omega), ok_bind,
      setChild_of_le hw (by simp only [numMaxKeys_putKey]; omega), ok_bind,
      getChild_of_le hw₃ (by simp only [numMaxKeys_putChild, numMaxKeys_putKey]; omega),
      ok_bind, assertThat_of hc, ok_bind]
  · rw [keys, hc₃, hc₂, hc₁]
    refine slots_put hkeys ?_ ?_ ?_
    · intro j hj
      rw [hk₃ j (by omega), if_neg (by omega), hk₂ j (by omega), if_neg (by omega),
        hk₁ j (by omega)]
    · rw [hk₃ _ (by omega), if_pos rfl]
    · intro j hj hj'
      rw [hk₃ j (by omega), if_neg (by omega), hk₂ j (by omega), if_pos ⟨hj, hj'⟩,
        hk₁ _ (by omega)]
  · have hchildren' : slots (n.numKeys + 1) n.childAt = (C ++ [left]) ++ D := by
      rw [List.append_assoc]; exact hchildren
    have hl : (C ++ [left]).length = A.length + 1 := by
      rw [List.length_append, hpos]; rfl
    rw [children, hc₃, hc₂, hc₁, show C ++ left :: right :: D = (C ++ [left]) ++ right :: D by
      rw [List.append_assoc]; rfl]
    refine slots_put hchildren' ?_ ?_ ?_
    · intro j hj
      rw [hd₃ j (by omega), if_neg (by omega), hd₂ j (by omega), if_neg (by omega),
        hd₁ j (by omega)]
    · rw [hl, hd₃ _ (by omega), if_pos rfl]
    · intro j hj hj'
      rw [hd₃ j (by omega), if_neg (by omega), hd₂ j (by omega), if_pos (by omega),
        hd₁ _ (by omega)]

/-! ## Split -/

/-- A node that the constructor makes of any page: empty, with the root flag and the parent that
the page had. -/
lemma create_spec (page : Page) :
    (create page).WF ∧ (create page).numKeys = 0 ∧ (create page).numMaxKeys = pageMax ∧
      (create page).data.nodeType = nodeTypeInner ∧ (create page).data.isRoot = page.isRoot ∧
      (create page).data.parent = page.parent := by
  obtain ⟨h₁, h₂, h₃⟩ := (page.setNodeType nodeTypeInner).header_set (encodeLE 4 0)
    (show commonNodeHeaderSize ≤ internalNodeNumKeysOffset from le_rfl)
  exact ⟨le_rfl, Page.u32_setU32 (by decide) (by decide), rfl,
    h₁.trans (page.nodeType_setNodeType (by decide)), h₂.trans (page.isRoot_setNodeType _),
    h₃.trans (page.parent_setNodeType _)⟩

lemma getKey_keys {n : InternalNode} (hn : n.WF) (hle : n.numKeys ≤ n.numMaxKeys) :
    ∀ i (h : i < n.keys.length), n.getKey i = .ok n.keys[i] := by
  intro i h
  rw [length_keys] at h
  have hi : n.keys[i] = n.keyAt i := getElem_slots _
  rw [hi, getKey_of_lt hn (by omega)]

lemma lt_of_getKey {n : InternalNode} {i : ℕ} {key : UInt32} (h : n.getKey i = .ok key) :
    i < n.numMaxKeys := by
  by_contra hge
  rw [getKey, assertThat_of_not hge, error_bind] at h
  exact nomatch h

lemma getChild_of_getElem? {n : InternalNode} (hn : n.WF) (hle : n.numKeys ≤ n.numMaxKeys)
    {i child : ℕ} (h : n.children[i]? = some child) : n.getChild i = .ok child := by
  rw [children, getElem?_slots] at h
  split_ifs at h with hi
  rw [getChild_of_le hn (by omega), Option.some.inj h]

/-- The search finds the cut: the key is not there, and belongs at the place of the cut. -/
lemma searchInsertLocation_spec {n : InternalNode} (hn : n.WF) {key : UInt32} {A B : List UInt32}
    (hkeys : n.keys = A ++ B) (hA : ∀ k ∈ A, k < key) (hB : ∀ k ∈ B, key < k)
    (hsorted : n.keys.Pairwise (· < ·)) (hne : 0 < n.numKeys) (hle : n.numKeys ≤ n.numMaxKeys) :
    n.searchInsertLocation key = .ok (true, A.length) := by
  have hmax : n.numMaxKeys ≤ pageMax := hn
  have hpm := pageMax_eq
  obtain ⟨pos, e, h | h⟩ := searchKeyPosition_cut key hsorted (getKey_keys hn hle)
    (by rw [length_keys]; exact hne) (by rw [length_keys]; omega) hkeys hA
    (fun k hk => le_of_lt (hB k hk))
  · exact absurd (hB _ h.1) (lt_irrefl _)
  · obtain ⟨-, hpos, hat⟩ := h
    rw [length_keys] at e
    rw [searchInsertLocation, e, ok_bind, hpos]
    split_ifs with h0
    · obtain ⟨k, hk, hne'⟩ := hat h0
      rw [hk, ok_bind, if_neg hne']
    · rfl

/-- What one turn of the loop moves: key `i` and child `i + 1` of the left node go to the place
with the next index where the cut `p` is not above them, and to the right node where that place is
not below the pivot's. -/
lemma moveLoop_step (p q i : ℕ) {left right : InternalNode} (hl : left.WF) (hr : right.WF)
    (hi : i < left.numMaxKeys) (hq : q < left.numMaxKeys)
    (hmax : left.numMaxKeys ≤ right.numMaxKeys) :
    ∃ left' right', moveLoop p q (i + 1) (left, right) = moveLoop p q i (left', right') ∧
      SameHeader left left' ∧ left'.numKeys = left.numKeys ∧
      SameHeader right right' ∧ right'.numKeys = right.numKeys ∧
      (∀ j < pageMax, left'.keyAt j
        = if p ≤ i ∧ j = i + 1 ∧ j ≤ q then left.keyAt i else left.keyAt j) ∧
      (∀ j ≤ pageMax, left'.childAt j
        = if p ≤ i ∧ j = i + 2 ∧ j ≤ q then left.childAt (i + 1) else left.childAt j) ∧
      (∀ j < pageMax, right'.keyAt j
        = if p ≤ i ∧ q + j = i ∨ i < p ∧ q + 1 + j = i then left.keyAt i else right.keyAt j) ∧
      (∀ j ≤ pageMax, right'.childAt j
        = if p ≤ i ∧ q + j = i + 1 ∨ i < p ∧ q + j = i then left.childAt (i + 1)
          else right.childAt j) := by
  have hlm : left.numMaxKeys ≤ pageMax := hl
  have hrm : right.numMaxKeys ≤ pageMax := hr
  have hc : left.childAt (i + 1) < 2 ^ 64 := left.childAt_lt (by omega)
  have h0 : 0 ≤ pageMax := Nat.zero_le _
  rw [moveLoop]
  generalize hidx : i + (if p ≤ i then 1 else 0) = idx
  have hplace : p ≤ i ∧ idx = i + 1 ∨ i < p ∧ idx = i := by
    rw [← hidx]
    split_ifs with hpos
    · exact .inl ⟨hpos, rfl⟩
    · exact .inr ⟨Nat.lt_of_not_le hpos, rfl⟩
  rcases lt_trichotomy idx q with hlt | heq | hgt
  · -- a place in the left node
    rw [if_neg (by omega), if_pos (by omega)]
    by_cases hmoves : i ≠ idx
    · have ha : idx ≤ pageMax := by omega
      have hb : idx + 1 ≤ pageMax := by omega
      have hl₁ := (left.sameHeader_putKey (left.keyAt i) ha).wf hl
      obtain ⟨hh, hn, hk, hd⟩ := left.put_spec ha hb (left.keyAt i) hc
      rw [if_pos hmoves, getKey_of_lt hl hi, ok_bind, setKey_of_lt hl (by omega), ok_bind,
        getChild_of_le hl₁ (by rw [numMaxKeys_putKey]; omega), ok_bind,
        childAt_putKey _ _ ha (by omega), setChild_of_le hl₁ (by rw [numMaxKeys_putKey]; omega),
        ok_bind]
      refine ⟨_, right, rfl, hh, hn, .refl _, rfl, ?_, ?_, ?_, ?_⟩
      · intro j hj
        rw [hk j hj]
        split_ifs <;> first | rfl | omega
      · intro j hj
        rw [hd j hj]
        split_ifs <;> first | rfl | omega
      · intro j hj
        rw [if_neg (by omega)]
      · intro j hj
        rw [if_neg (by omega)]
    · rw [if_neg hmoves]
      refine ⟨left, right, rfl, .refl _, rfl, .refl _, rfl, fun j hj => ?_, fun j hj => ?_,
        fun j hj => ?_, fun j hj => ?_⟩ <;> rw [if_neg (by omega)]
  · -- the place of the pivot, whose right child goes to the front of the right node
    have hrk : ∀ j < pageMax, (right.putChild 0 (left.childAt (i + 1))).keyAt j
        = if p ≤ i ∧ q + j = i ∨ i < p ∧ q + 1 + j = i then left.keyAt i else right.keyAt j := by
      intro j hj
      rw [right.keyAt_putChild _ h0 hj, if_neg (by omega)]
    have hrd : ∀ j ≤ pageMax, (right.putChild 0 (left.childAt (i + 1))).childAt j
        = if p ≤ i ∧ q + j = i + 1 ∨ i < p ∧ q + j = i then left.childAt (i + 1)
          else right.childAt j := by
      intro j hj
      rw [right.childAt_putChild _ h0 hc hj]
      split_ifs <;> first | rfl | omega
    rw [if_pos heq, getChild_of_le hl (by omega), ok_bind, setChild_of_le hr (Nat.zero_le _),
      ok_bind]
    by_cases hmoves : idx ≠ i
    · have ha : idx ≤ pageMax := by omega
      rw [if_pos hmoves, getKey_of_lt hl hi, ok_bind, setKey_of_lt hl (by omega), ok_bind]
      refine ⟨_, _, rfl, left.sameHeader_putKey _ ha, left.numKeys_putKey _ ha,
        right.sameHeader_putChild _ h0, right.numKeys_putChild _ h0, ?_, ?_, hrk, hrd⟩
      · intro j hj
        rw [left.keyAt_putKey _ ha hj]
        split_ifs <;> first | rfl | omega
      · intro j hj
        rw [left.childAt_putKey _ ha hj, if_neg (by omega)]
    · rw [if_neg hmoves]
      refine ⟨left, _, rfl, .refl _, rfl, right.sameHeader_putChild _ h0,
        right.numKeys_putChild _ h0, ?_, ?_, hrk, hrd⟩
      · intro j hj
        rw [if_neg (by omega)]
      · intro j hj
        rw [if_neg (by omega)]
  · -- a place in the right node
    have ha : idx - (q + 1) ≤ pageMax := by omega
    have hb : idx - (q + 1) + 1 ≤ pageMax := by omega
    have hr₁ := (right.sameHeader_putKey (left.keyAt i) ha).wf hr
    obtain ⟨hh, hn, hk, hd⟩ := right.put_spec ha hb (left.keyAt i) hc
    rw [if_neg (by omega), if_neg (by omega), getKey_of_lt hl hi, ok_bind,
      setKey_of_lt hr (by omega), ok_bind, getChild_of_le hl (by omega), ok_bind,
      setChild_of_le hr₁ (by rw [numMaxKeys_putKey]; omega), ok_bind]
    refine ⟨left, _, rfl, .refl _, rfl, hh, hn, ?_, ?_, ?_, ?_⟩
    · intro j hj
      rw [if_neg (by omega)]
    · intro j hj
      rw [if_neg (by omega)]
    · intro j hj
      rw [hk j hj]
      split_ifs <;> first | rfl | omega
    · intro j hj
      rw [hd j hj]
      split_ifs <;> first | rfl | omega

/-- Where the whole loop takes keys and children. -/
lemma moveLoop_spec (p q : ℕ) : ∀ (i : ℕ) {left right : InternalNode}, left.WF → right.WF →
    i ≤ left.numMaxKeys → q < left.numMaxKeys → left.numMaxKeys ≤ right.numMaxKeys →
    ∃ left' right', moveLoop p q i (left, right) = .ok (left', right') ∧
      SameHeader left left' ∧ left'.numKeys = left.numKeys ∧
      SameHeader right right' ∧ right'.numKeys = right.numKeys ∧
      (∀ j < pageMax, left'.keyAt j
        = if p < j ∧ j ≤ i ∧ j ≤ q then left.keyAt (j - 1) else left.keyAt j) ∧
      (∀ j ≤ pageMax, left'.childAt j
        = if p + 1 < j ∧ j ≤ i + 1 ∧ j ≤ q then left.childAt (j - 1) else left.childAt j) ∧
      (∀ j < pageMax, right'.keyAt j
        = if q + 1 + j < p ∧ q + 1 + j < i then left.keyAt (q + 1 + j)
          else if p < q + 1 + j ∧ q + 1 + j ≤ i then left.keyAt (q + j) else right.keyAt j) ∧
      (∀ j ≤ pageMax, right'.childAt j
        = if q + j < p ∧ q + j < i then left.childAt (q + j + 1)
          else if p < q + j ∧ q + j ≤ i then left.childAt (q + j) else right.childAt j) := by
  intro i
  induction i with
  | zero =>
      intro left right _ _ _ _ _
      refine ⟨left, right, rfl, .refl _, rfl, .refl _, rfl, ?_, ?_, ?_, ?_⟩
      · intro j _
        rw [if_neg (by omega)]
      · intro j _
        rw [if_neg (by omega)]
      · intro j _
        rw [if_neg (by omega), if_neg (by omega)]
      · intro j _
        rw [if_neg (by omega), if_neg (by omega)]
  | succ i ih =>
      intro left right hl hr hi hq hmax
      have hlm : left.numMaxKeys ≤ pageMax := hl
      obtain ⟨l₁, r₁, e₁, hhl, hnl, hhr, hnr, hlk, hlc, hrk, hrc⟩ :=
        moveLoop_step p q i hl hr hi hq hmax
      obtain ⟨l₂, r₂, e₂, hhl', hnl', hhr', hnr', hlk', hlc', hrk', hrc'⟩ :=
        ih (hhl.wf hl) (hhr.wf hr) (by rw [hhl.numMaxKeys]; omega)
          (by rw [hhl.numMaxKeys]; exact hq) (by rw [hhl.numMaxKeys, hhr.numMaxKeys]; exact hmax)
      -- what is still to be moved has not been written over
      have hk : ∀ j ≤ i, l₁.keyAt j = left.keyAt j := by
        intro j hj
        rw [hlk j (by omega), if_neg (by omega)]
      have hc : ∀ j ≤ i + 1, l₁.childAt j = left.childAt j := by
        intro j hj
        rw [hlc j (by omega), if_neg (by omega)]
      refine ⟨l₂, r₂, e₁.trans e₂, hhl.trans hhl', hnl'.trans hnl, hhr.trans hhr', hnr'.trans hnr,
        ?_, ?_, ?_, ?_⟩
      · intro j hj
        rw [hlk' j hj, hlk j hj]
        split_ifs <;> first | omega | with_reducible rfl | (congr 1; omega) | exact hk _ (by omega)
      · intro j hj
        rw [hlc' j hj, hlc j hj]
        split_ifs <;> first | omega | with_reducible rfl | (congr 1; omega) | exact hc _ (by omega)
      · intro j hj
        rw [hrk' j hj, hrk j hj]
        split_ifs <;> first | omega | with_reducible rfl | (congr 1; omega) | exact hk _ (by omega)
      · intro j hj
        rw [hrc' j hj, hrc j hj]
        split_ifs <;> first | omega | with_reducible rfl | (congr 1; omega) | exact hc _ (by omega)

/-- The keys with one more put in at a cut, place by place. -/
lemma getElem?_put_keys {n : InternalNode} {A B : List UInt32} (hkeys : n.keys = A ++ B)
    (key : UInt32) {i : ℕ} (hi : i ≤ n.numKeys) :
    (A ++ key :: B)[i]? = some (if i < A.length then n.keyAt i
      else if i = A.length then key else n.keyAt (i - 1)) := by
  have hlen : A.length + B.length = n.numKeys := by
    rw [← List.length_append, ← hkeys, length_keys]
  rw [getElem?_put, ← hkeys, keys, getElem?_slots, getElem?_slots]
  split_ifs <;> first | rfl | omega

/-- The children with one more put in behind the one at a cut, place by place. -/
lemma getElem?_put_children {n : InternalNode} {left : ℕ} {C D : List ℕ}
    (hchildren : n.children = C ++ left :: D) (right : ℕ) {i : ℕ} (hi : i ≤ n.numKeys + 1) :
    (C ++ left :: right :: D)[i]? = some (if i < C.length + 1 then n.childAt i
      else if i = C.length + 1 then right else n.childAt (i - 1)) := by
  have hlen := congrArg List.length hchildren
  simp only [length_children, List.length_append, List.length_cons] at hlen
  have hsplit : C ++ left :: right :: D = (C ++ [left]) ++ right :: D := by
    rw [List.append_assoc]; rfl
  have hold : (C ++ [left]) ++ D = slots (n.numKeys + 1) n.childAt := by
    rw [List.append_assoc]; exact hchildren.symm
  rw [hsplit, getElem?_put, hold, getElem?_slots, getElem?_slots, List.length_append,
    List.length_singleton]
  split_ifs <;> first | rfl | omega

/-- The end of a split: the left node keeps the keys below the pivot. -/
lemma setNumKeys_take {n : InternalNode} {W : List UInt32} {V : List ℕ} {half : ℕ}
    (hmax : half < pageMax) (hW : half < W.length) (hV : half + 1 ≤ V.length)
    (hkey : ∀ j ≤ half, W[j]? = some (n.keyAt j))
    (hchild : ∀ j ≤ half, V[j]? = some (n.childAt j)) :
    W[half]? = some (n.keyAt half) ∧ (n.setNumKeys half).keys = W.take half ∧
      (n.setNumKeys half).children = V.take (half + 1) ∧ SameHeader n (n.setNumKeys half) := by
  have hpm := pageMax_eq
  obtain ⟨hh, hn, hk, hc⟩ := n.setNumKeys_spec (show half < 2 ^ 32 by omega)
  refine ⟨hkey half le_rfl, ?_, ?_, hh⟩
  · rw [keys, hn]
    exact slots_eq_take (le_of_lt hW) fun j hj => by
      rw [hk j (by omega)]; exact hkey j (le_of_lt hj)
  · rw [children, hn]
    exact slots_eq_take hV fun j hj => by rw [hc j (by omega)]; exact hchild j (by omega)

/-- The two nodes of a split around `2 * m` keys hold the keys `W` and the children `V`, the pivot
`W[m]` still in the left one. -/
structure Halves (m : ℕ) (W : List UInt32) (V : List ℕ) (l r : InternalNode) : Prop where
  leftKeys : ∀ j ≤ m, W[j]? = some (l.keyAt j)
  leftChildren : ∀ j ≤ m, V[j]? = some (l.childAt j)
  rightKeys : ∀ j < m, W[m + 1 + j]? = some (r.keyAt j)
  rightChildren : ∀ j ≤ m, V[m + 1 + j]? = some (r.childAt j)

/-- What the loop leaves behind: everything is in its place but the new key at `p` and the child
behind it. -/
structure Moved (m p : ℕ) (W : List UInt32) (V : List ℕ) (l r : InternalNode) : Prop where
  wf_left : l.WF
  wf_right : r.WF
  max_left : l.numMaxKeys = 2 * m
  max_right : r.numMaxKeys = pageMax
  leftKeys : ∀ j ≤ m, j ≠ p → W[j]? = some (l.keyAt j)
  leftChildren : ∀ j ≤ m, j ≠ p + 1 → V[j]? = some (l.childAt j)
  rightKeys : ∀ j < m, m + 1 + j ≠ p → W[m + 1 + j]? = some (r.keyAt j)
  rightChildren : ∀ j ≤ m, m + j ≠ p → V[m + 1 + j]? = some (r.childAt j)

/-- The loop of a split of a full node. -/
lemma moveLoop_moved {n r₀ : InternalNode} (hn : n.WF) (hr₀ : r₀.WF)
    (hmax : r₀.numMaxKeys = pageMax) {A B : List UInt32} {C D : List ℕ} {left : ℕ}
    (hkeys : n.keys = A ++ B) (hchildren : n.children = C ++ left :: D)
    (hpos : C.length = A.length) (hfull : n.numKeys = n.numMaxKeys) {m : ℕ}
    (hm : n.numKeys = 2 * m) (h0 : 0 < n.numKeys) (key : UInt32) (right : ℕ) :
    ∃ l r, moveLoop A.length m n.numKeys (n, r₀) = .ok (l, r) ∧ SameHeader n l ∧
      SameHeader r₀ r ∧ r.numKeys = r₀.numKeys ∧
      Moved m A.length (A ++ key :: B) (C ++ left :: right :: D) l r := by
  have hnmax : n.numMaxKeys ≤ pageMax := hn
  have hlen : A.length + B.length = n.numKeys := by
    rw [← List.length_append, ← hkeys, length_keys]
  obtain ⟨l, r, e, hhl, -, hhr, hnr, hlk, hlc, hrk, hrc⟩ :=
    moveLoop_spec A.length m n.numKeys hn hr₀ (le_of_eq hfull) (by omega) (by omega)
  refine ⟨l, r, e, hhl, hhr, hnr, hhl.wf hn, hhr.wf hr₀, ?_, hhr.numMaxKeys.trans hmax, ?_, ?_,
    ?_, ?_⟩
  · rw [hhl.numMaxKeys, ← hfull, hm]
  · intro j hj hne
    rw [getElem?_put_keys hkeys _ (by omega), hlk j (by omega)]
    split_ifs <;> first | with_reducible rfl | omega
  · intro j hj hne
    rw [getElem?_put_children hchildren _ (by omega), hlc j (by omega)]
    split_ifs <;> first | with_reducible rfl | omega
  · intro j hj hne
    rw [getElem?_put_keys hkeys _ (by omega), hrk j (by omega), show m + 1 + j - 1 = m + j by omega]
    split_ifs <;> first | with_reducible rfl | omega
  · intro j hj hne
    rw [getElem?_put_children hchildren _ (by omega), hrc j (by omega),
      show m + 1 + j - 1 = m + j by omega, show m + j + 1 = m + 1 + j by omega]
    split_ifs <;> first | with_reducible rfl | omega

namespace Moved

variable {m p : ℕ} {W : List UInt32} {V : List ℕ} {l r : InternalNode} {key : UInt32}
  {left right : ℕ}

lemma le_pageMax (h : Moved m p W V l r) : 2 * m ≤ pageMax := h.max_left ▸ h.wf_left

/-- The new key stays left of the pivot. -/
lemma putLeft (h : Moved m p W V l r) (hp : p < m) (hkey : W[p]? = some key)
    (hleft : V[p]? = some left) (hnew : V[p + 1]? = some right) (hright : right < 2 ^ 64) :
    ∃ l₁ l₂, l.setKey p key = .ok l₁ ∧ l₁.setChild (p + 1) right = .ok l₂ ∧
      l₂.getChild p = .ok left ∧ l₂.getKey m = .ok (l₂.keyAt m) ∧ SameHeader l l₂ ∧
      Halves m W V l₂ r := by
  have hle := h.le_pageMax
  have hmax := h.max_left
  have ha : p ≤ pageMax := by omega
  have hb : p + 1 ≤ pageMax := by omega
  obtain ⟨hh, -, hk, hc⟩ := l.put_spec ha hb key hright
  have hw₁ := (l.sameHeader_putKey key ha).wf h.wf_left
  have hw₂ := hh.wf h.wf_left
  have hmax₂ := hh.numMaxKeys
  refine ⟨_, _, setKey_of_lt h.wf_left (by omega) key,
    setChild_of_le hw₁ (by rw [numMaxKeys_putKey]; omega) right, ?_, getKey_of_lt hw₂ (by omega),
    hh, ⟨?_, ?_, ?_, ?_⟩⟩
  · rw [getChild_of_le hw₂ (by omega), hc p ha, if_neg (by omega)]
    have hold := h.leftChildren p (by omega) (by omega)
    rw [hleft] at hold
    rw [Option.some.inj hold]
  · intro j hj
    rw [hk j (by omega)]
    split_ifs with hjp
    · rw [hjp, hkey]
    · exact h.leftKeys j hj hjp
  · intro j hj
    rw [hc j (by omega)]
    split_ifs with hjp
    · rw [hjp, hnew]
    · exact h.leftChildren j hj hjp
  · exact fun j hj => h.rightKeys j hj (by omega)
  · exact fun j hj => h.rightChildren j hj (by omega)

/-- The new key is the pivot: its right child is the first one of the right node. -/
lemma putPivot (h : Moved m m W V l r) (hpos : 0 < m) (hkey : W[m]? = some key)
    (hleft : V[m]? = some left) (hnew : V[m + 1]? = some right) (hright : right < 2 ^ 64) :
    ∃ l₁ r₁, l.setKey m key = .ok l₁ ∧ r.setChild 0 right = .ok r₁ ∧
      l₁.getChild m = .ok left ∧ l₁.getKey m = .ok (l₁.keyAt m) ∧ SameHeader l l₁ ∧
      SameHeader r r₁ ∧ r₁.numKeys = r.numKeys ∧ Halves m W V l₁ r₁ := by
  have hle := h.le_pageMax
  have hmax := h.max_left
  have ha : m ≤ pageMax := by omega
  have hz := Nat.zero_le pageMax
  have hh := l.sameHeader_putKey key ha
  have hw₁ := hh.wf h.wf_left
  have hmax₁ := hh.numMaxKeys
  refine ⟨_, _, setKey_of_lt h.wf_left (by omega) key,
    setChild_of_le h.wf_right (Nat.zero_le _) right, ?_, getKey_of_lt hw₁ (by omega), hh,
    r.sameHeader_putChild right hz, r.numKeys_putChild right hz, ⟨?_, ?_, ?_, ?_⟩⟩
  · rw [getChild_of_le hw₁ (by omega), l.childAt_putKey key ha ha]
    have hold := h.leftChildren m le_rfl (by omega)
    rw [hleft] at hold
    rw [Option.some.inj hold]
  · intro j hj
    rw [l.keyAt_putKey key ha (by omega)]
    split_ifs with hjm
    · rw [hjm, hkey]
    · exact h.leftKeys j hj hjm
  · intro j hj
    rw [l.childAt_putKey key ha (by omega)]
    exact h.leftChildren j hj (by omega)
  · intro j hj
    rw [r.keyAt_putChild right hz (by omega)]
    exact h.rightKeys j hj (by omega)
  · intro j hj
    rw [r.childAt_putChild right hz hright (by omega)]
    split_ifs with hj0
    · rw [hj0, Nat.add_zero, hnew]
    · exact h.rightChildren j hj (by omega)

/-- The new key goes to the right node. -/
lemma putRight (h : Moved m p W V l r) (hp : m < p) (hp' : p ≤ 2 * m) (hkey : W[p]? = some key)
    (hleft : V[p]? = some left) (hnew : V[p + 1]? = some right) (hright : right < 2 ^ 64) :
    ∃ r₁ r₂, r.setKey (p - (m + 1)) key = .ok r₁ ∧
      r₁.setChild (p - (m + 1) + 1) right = .ok r₂ ∧ r₂.getChild (p - (m + 1)) = .ok left ∧
      l.getKey m = .ok (l.keyAt m) ∧ SameHeader r r₂ ∧ r₂.numKeys = r.numKeys ∧
      Halves m W V l r₂ := by
  have hle := h.le_pageMax
  have hmaxl := h.max_left
  have hmaxr := h.max_right
  obtain ⟨i, rfl⟩ : ∃ i, p = m + 1 + i := ⟨p - (m + 1), by omega⟩
  rw [Nat.add_sub_cancel_left]
  have ha : i ≤ pageMax := by omega
  have hb : i + 1 ≤ pageMax := by omega
  obtain ⟨hh, hnum, hk, hc⟩ := r.put_spec ha hb key hright
  have hw₁ := (r.sameHeader_putKey key ha).wf h.wf_right
  have hw₂ := hh.wf h.wf_right
  have hmax₂ := hh.numMaxKeys
  refine ⟨_, _, setKey_of_lt h.wf_right (by omega) key,
    setChild_of_le hw₁ (by rw [numMaxKeys_putKey]; omega) right, ?_,
    getKey_of_lt h.wf_left (by omega), hh, hnum, ⟨?_, ?_, ?_, ?_⟩⟩
  · rw [getChild_of_le hw₂ (by omega), hc i ha, if_neg (by omega)]
    have hold := h.rightChildren i (by omega) (by omega)
    rw [hleft] at hold
    rw [Option.some.inj hold]
  · exact fun j hj => h.leftKeys j hj (by omega)
  · exact fun j hj => h.leftChildren j hj (by omega)
  · intro j hj
    rw [hk j (by omega)]
    split_ifs with hji
    · rw [hji, hkey]
    · exact h.rightKeys j hj (by omega)
  · intro j hj
    rw [hc j (by omega)]
    split_ifs with hji
    · rw [hji, ← hnew, Nat.add_assoc (m + 1)]
    · exact h.rightChildren j hj (by omega)

end Moved

/-- **A split is an insertion followed by a cut**: the node keeps half of the keys and one child
more, the new node gets as many, and the key between them is the pivot. -/
theorem insertAndSplit_spec {n : InternalNode} (hn : n.WF) {key : UInt32} {left right : ℕ}
    {A B : List UInt32} {C D : List ℕ} (hkeys : n.keys = A ++ B) (hA : ∀ k ∈ A, k < key)
    (hB : ∀ k ∈ B, key < k) (hsorted : n.keys.Pairwise (· < ·))
    (hchildren : n.children = C ++ left :: D) (hpos : C.length = A.length)
    (hfull : n.numKeys = n.numMaxKeys) (h0 : 0 < n.numKeys) (heven : n.numKeys % 2 = 0)
    (hright : right < 2 ^ 64) (newPage : Page) :
    ∃ pivot l r, n.insertAndSplit key left right newPage = .ok (pivot, l, r) ∧
      (A ++ key :: B)[n.numKeys / 2]? = some pivot ∧
      l.keys = (A ++ key :: B).take (n.numKeys / 2) ∧
      l.children = (C ++ left :: right :: D).take (n.numKeys / 2 + 1) ∧
      r.keys = (A ++ key :: B).drop (n.numKeys / 2 + 1) ∧
      r.children = (C ++ left :: right :: D).drop (n.numKeys / 2 + 1) ∧
      SameHeader n l ∧ r.data.nodeType = nodeTypeInner ∧ r.data.isRoot = newPage.isRoot ∧
      r.data.parent = newPage.parent := by
  obtain ⟨hlen, -, -⟩ := cut_spec hkeys hA hB
  have hclen := congrArg List.length hchildren
  simp only [length_children, List.length_append, List.length_cons] at hclen
  have hmax : n.numMaxKeys ≤ pageMax := hn
  have hpm := pageMax_eq
  obtain ⟨m, hm⟩ : ∃ m, n.numKeys = 2 * m := ⟨n.numKeys / 2, by omega⟩
  have hhalf : n.numKeys / 2 = m := by omega
  obtain ⟨hw₀, -, hm₀, htype, hroot, hpar⟩ := create_spec newPage
  obtain ⟨hh₁, hn₁, -, -⟩ := (create newPage).setNumKeys_spec (show m < 2 ^ 32 by omega)
  have hsearch := searchInsertLocation_spec hn hkeys hA hB hsorted h0 (le_of_eq hfull)
  obtain ⟨l, r, em, hhl, hhr, hnr, hmoved⟩ := moveLoop_moved hn (hh₁.wf hw₀)
    (hh₁.numMaxKeys.trans hm₀) hkeys hchildren hpos hfull hm h0 key right
  have hkey : (A ++ key :: B)[A.length]? = some key := by
    rw [getElem?_put, if_neg (lt_irrefl _), if_pos rfl]
  have hleft : (C ++ left :: right :: D)[A.length]? = some left := by
    rw [← hpos, List.getElem?_append_right le_rfl, Nat.sub_self]; rfl
  have hnew : (C ++ left :: right :: D)[A.length + 1]? = some right := by
    rw [getElem?_put_children hchildren _ (by omega), hpos, if_neg (lt_irrefl _), if_pos rfl]
  suffices h : ∃ l' r', n.insertAndSplit key left right newPage
      = .ok (l'.keyAt m, l'.setNumKeys m, r') ∧ SameHeader l l' ∧ SameHeader r r' ∧
      r'.numKeys = r.numKeys ∧ Halves m (A ++ key :: B) (C ++ left :: right :: D) l' r' by
    obtain ⟨l', r', e, hhl', hhr', hnr', hhalves⟩ := h
    have hW : (A ++ key :: B).length = n.numKeys + 1 := by
      simp only [List.length_append, List.length_cons]; omega
    have hV : (C ++ left :: right :: D).length = n.numKeys + 2 := by
      simp only [List.length_append, List.length_cons]; omega
    obtain ⟨hp, hk, hc, hh⟩ := setNumKeys_take (show m < pageMax by omega) (by omega) (by omega)
      hhalves.leftKeys hhalves.leftChildren
    have hhr'' := (hh₁.trans hhr).trans hhr'
    rw [hnr, hn₁] at hnr'
    rw [hhalf]
    refine ⟨_, _, r', e, hp, hk, hc, ?_, ?_, (hhl.trans hhl').trans hh, ?_, ?_, ?_⟩
    · rw [keys, hnr']
      exact slots_eq_drop (by omega) hhalves.rightKeys
    · rw [children, hnr']
      exact slots_eq_drop (by omega) fun j hj => hhalves.rightChildren j (by omega)
    · rw [hhr''.nodeType, htype]
    · rw [hhr''.isRoot, hroot]
    · rw [hhr''.parent, hpar]
  rw [insertAndSplit]
  simp only [isFull, hfull, beq_self_eq_true, assertThat_of, ok_bind]
  rw [← hfull, hsearch]
  simp only [ok_bind, assertThat_of, Int.toNat_natCast, hhalf, em]
  rcases lt_trichotomy A.length m with hp | hp | hp
  · obtain ⟨l₁, l₂, e₁, e₂, e₃, e₄, hh, hhalves⟩ := hmoved.putLeft hp hkey hleft hnew hright
    refine ⟨l₂, r, ?_, hh, .refl r, rfl, hhalves⟩
    rw [if_pos (by omega), e₁, ok_bind, if_neg (by omega), e₂]
    simp only [ok_bind]
    rw [e₃, ok_bind, assertThat_of rfl, ok_bind, e₄, ok_bind]
  · rw [hp] at hmoved hkey hleft hnew
    obtain ⟨l₁, r₁, e₁, e₂, e₃, e₄, hhl', hhr', hnr', hhalves⟩ :=
      hmoved.putPivot (by omega) hkey hleft hnew hright
    refine ⟨l₁, r₁, ?_, hhl', hhr', hnr', hhalves⟩
    rw [hp, if_pos (by omega), e₁, ok_bind, if_pos rfl, e₂]
    simp only [ok_bind]
    rw [e₃, ok_bind, assertThat_of rfl, ok_bind, e₄, ok_bind]
  · obtain ⟨r₁, r₂, e₁, e₂, e₃, e₄, hh, hnr', hhalves⟩ :=
      hmoved.putRight hp (by omega) hkey hleft hnew hright
    refine ⟨l, r₂, ?_, .refl l, hh, hnr', hhalves⟩
    rw [if_neg (by omega), e₁, ok_bind, e₂, ok_bind, e₃, ok_bind, assertThat_of rfl, ok_bind, e₄,
      ok_bind]

end InternalNode

end DbToy
