import DbToy.Page

/-!
# The header that all nodes share

`BtreeNode` of `btree.h`: the type, the root flag and the parent of a node, at the front of its
page, and the binary search by which every node finds a key.

What a node holds besides its parent and its root flag is its *body*.  Linking a page to a parent
and moving the root change no body (`body_setParent`, `body_setRoot`), and everything that is read
past the header is read from the body (`get_congr`).
-/

namespace DbToy

open Bytes

def nodeTypeOffset : ℕ := 0
def isRootOffset : ℕ := 1
def parentPointerOffset : ℕ := 2
def commonNodeHeaderSize : ℕ := 10
def nodeParentInvalid : ℕ := 2 ^ 64 - 1
def nodeTypeInner : ℕ := 0
def nodeTypeLeaf : ℕ := 1

namespace Page

def u32 (p : Page) (off : ℕ) : ℕ := decodeLE (p.get off 4)

def setU32 (p : Page) (off v : ℕ) : Page := p.set off (encodeLE 4 v)

def nodeType (p : Page) : ℕ := decodeLE (p.get nodeTypeOffset 1)

def setNodeType (p : Page) (v : ℕ) : Page := p.set nodeTypeOffset (encodeLE 1 v)

def isRoot (p : Page) : Bool := decodeLE (p.get isRootOffset 1) != 0

def setRoot (p : Page) (isRoot : Bool) : Page := p.set isRootOffset (encodeLE 1 isRoot.toNat)

def parent (p : Page) : ℕ := decodeLE (p.get parentPointerOffset 8)

def setParent (p : Page) (v : ℕ) : Page := p.set parentPointerOffset (encodeLE 8 v)

lemma u32_setU32 {p : Page} {off v : ℕ} (h : off + 4 ≤ pageSize) (hv : v < 2 ^ 32) :
    (p.setU32 off v).u32 off = v := by
  rw [u32, setU32, get_set_same (length_encodeLE _ _) h, decodeLE_encodeLE_of_lt (by simpa using hv)]

lemma u32_lt (p : Page) (off : ℕ) : p.u32 off < 2 ^ 32 := by
  have hlen : (p.get off 4).length ≤ 4 := (length_slice _ _ _).trans_le (min_le_left _ _)
  calc p.u32 off < 256 ^ (p.get off 4).length := decodeLE_lt _
    _ ≤ 256 ^ 4 := Nat.pow_le_pow_right (by norm_num) hlen
    _ = 2 ^ 32 := by norm_num

/-! ## Header fields and writes -/

section

variable (p : Page)

@[simp] lemma parent_setParent {v : ℕ} (h : v < 2 ^ 64) : (p.setParent v).parent = v := by
  rw [parent, setParent, get_set_same (length_encodeLE _ _) (by decide),
    decodeLE_encodeLE_of_lt (by simpa using h)]

@[simp] lemma isRoot_setParent (v : ℕ) : (p.setParent v).isRoot = p.isRoot := by
  rw [isRoot, setParent, get_set_of_disjoint (length_encodeLE _ _) (Or.inl (by decide)) (by decide)]
  rfl

@[simp] lemma isRoot_setRoot (b : Bool) : (p.setRoot b).isRoot = b := by
  rw [isRoot, setRoot, get_set_same (length_encodeLE _ _) (by decide)]
  cases b <;> rfl

@[simp] lemma parent_setRoot (b : Bool) : (p.setRoot b).parent = p.parent := by
  rw [parent, setRoot, get_set_of_disjoint (length_encodeLE _ _) (Or.inr (by decide)) (by decide)]
  rfl

/-- Of two parents the second remains. -/
@[simp] lemma setParent_setParent (v w : ℕ) : (p.setParent v).setParent w = p.setParent w :=
  p.set_set_same (by rw [length_encodeLE, length_encodeLE])

/-- A page already has its parent. -/
@[simp] lemma setParent_parent : p.setParent p.parent = p := by
  have hlen : (p.get parentPointerOffset 8).length = 8 := length_get (by decide)
  have henc := encodeLE_decodeLE (p.get parentPointerOffset 8)
  rw [hlen] at henc
  rw [setParent, parent, henc]
  exact set_get (by decide)

lemma nodeType_setNodeType {v : ℕ} (h : v < 256) : (p.setNodeType v).nodeType = v := by
  rw [nodeType, setNodeType, get_set_same (length_encodeLE _ _) (by decide),
    decodeLE_encodeLE_of_lt (by simpa using h)]

@[simp] lemma isRoot_setNodeType (v : ℕ) : (p.setNodeType v).isRoot = p.isRoot := by
  rw [isRoot, setNodeType, get_set_of_disjoint (length_encodeLE _ _) (Or.inr (by decide))
    (by decide)]
  rfl

@[simp] lemma parent_setNodeType (v : ℕ) : (p.setNodeType v).parent = p.parent := by
  rw [parent, setNodeType, get_set_of_disjoint (length_encodeLE _ _) (Or.inr (by decide))
    (by decide)]
  rfl

lemma get_setNodeType (v : ℕ) {off len : ℕ} (h : 1 ≤ off) (h' : off + len ≤ pageSize) :
    (p.setNodeType v).get off len = p.get off len :=
  get_set_of_disjoint (length_encodeLE _ _) (Or.inr h) h'

/-- A write past the common header leaves its fields alone. -/
lemma header_set {off : ℕ} (bs : List UInt8) (h : commonNodeHeaderSize ≤ off) :
    (p.set off bs).nodeType = p.nodeType ∧ (p.set off bs).isRoot = p.isRoot ∧
      (p.set off bs).parent = p.parent := by
  have hd : ∀ a len, a + len ≤ commonNodeHeaderSize →
      (p.set off bs).get a len = p.get a len := fun a len ha =>
    get_set_of_disjoint rfl (Or.inl (le_trans ha h)) (le_trans ha (by decide))
  simp only [nodeType, isRoot, parent, hd _ _ (by decide : nodeTypeOffset + 1 ≤ _),
    hd _ _ (by decide : isRootOffset + 1 ≤ _), hd _ _ (by decide : parentPointerOffset + 8 ≤ _),
    and_self]

/-! ## The body -/

/-- The type and everything behind the common header. -/
def body : List UInt8 × List UInt8 :=
  (p.get nodeTypeOffset 1, p.get commonNodeHeaderSize (pageSize - commonNodeHeaderSize))

@[simp] lemma body_setParent (v : ℕ) : (p.setParent v).body = p.body := by
  simp only [body, setParent]
  rw [get_set_of_disjoint (length_encodeLE _ _) (Or.inl (by decide)) (by decide),
    get_set_of_disjoint (length_encodeLE _ _) (Or.inr (by decide)) (by decide)]

@[simp] lemma body_setRoot (b : Bool) : (p.setRoot b).body = p.body := by
  simp only [body, setRoot]
  rw [get_set_of_disjoint (length_encodeLE _ _) (Or.inl (by decide)) (by decide),
    get_set_of_disjoint (length_encodeLE _ _) (Or.inr (by decide)) (by decide)]

end

lemma nodeType_congr {p q : Page} (h : p.body = q.body) : p.nodeType = q.nodeType := by
  rw [nodeType, nodeType, show p.get nodeTypeOffset 1 = q.get nodeTypeOffset 1 from
    congrArg Prod.fst h]

/-- Pages with the same body agree behind the header. -/
lemma get_congr {p q : Page} (h : p.body = q.body) {off : ℕ} (hoff : commonNodeHeaderSize ≤ off)
    (len : ℕ) : p.get off len = q.get off len := by
  have key : ∀ r : Page, r.get off len = slice r.body.2 (off - commonNodeHeaderSize) len := by
    intro r
    refine List.ext_getElem? ?_
    intro i
    have hl := r.length_bytes
    simp only [get, body, getElem?_slice]
    split_ifs with h1 h2
    · rw [← Nat.add_assoc, Nat.add_sub_cancel' hoff]
    · exact List.getElem?_eq_none (by omega)
    · rfl
  rw [key, key, h]

lemma u32_congr {p q : Page} (h : p.body = q.body) {off : ℕ} (hoff : commonNodeHeaderSize ≤ off) :
    p.u32 off = q.u32 off := by
  rw [u32, u32, get_congr h hoff]

end Page

/-! ## Binary search

`search_key_position` runs over the keys of any node; `getKey` is the node's own access. -/

/-- The loop over the interval from `start` to `stop`, which gets shorter in every turn. -/
def searchLoop (getKey : ℕ → Except Fault UInt32) (key : UInt32) :
    ℕ → ℤ → ℤ → Except Fault ℤ
  | 0, _, _ => .error .diverges
  | fuel + 1, start, stop =>
    if start ≤ stop then do
      let mid := start + (stop - start) / 2
      let keyMid ← getKey mid.toNat
      if keyMid = key then .ok mid
      else if keyMid < key then searchLoop getKey key fuel (mid + 1) stop
      else searchLoop getKey key fuel start (mid - 1)
    else do
      assertThat (start = stop + 1) "start == end + 1"
      .ok stop

def searchKeyPosition (numKeys : ℕ) (getKey : ℕ → Except Fault UInt32) (key : UInt32) :
    Except Fault ℤ := do
  assertThat (0 < numKeys) "n > 0"
  searchLoop getKey key (numKeys + 1) 0 (toInt (numKeys - 1))

/-- `pos` cuts the keys: those up to it are at most `key`, the later ones greater. -/
structure IsPosition (keys : List UInt32) (key : UInt32) (pos : ℤ) : Prop where
  lower : -1 ≤ pos
  upper : pos < keys.length
  le : ∀ (i : ℕ) (h : i < keys.length), (i : ℤ) ≤ pos → keys[i] ≤ key
  lt : ∀ (i : ℕ) (h : i < keys.length), pos < i → key < keys[i]

/-- The interval that is still searched lies between keys below and keys above `key`. -/
lemma searchLoop_spec {keys : List UInt32} {getKey : ℕ → Except Fault UInt32} (key : UInt32)
    (hsorted : keys.Pairwise (· < ·)) (hget : ∀ i (h : i < keys.length), getKey i = .ok keys[i]) :
    ∀ (fuel : ℕ) (start stop : ℤ), 0 ≤ start → stop < keys.length → stop + 1 - start < fuel →
      start ≤ stop + 1 →
      (∀ (i : ℕ) (h : i < keys.length), (i : ℤ) < start → keys[i] < key) →
      (∀ (i : ℕ) (h : i < keys.length), stop < i → key < keys[i]) →
      ∃ pos, searchLoop getKey key fuel start stop = .ok pos ∧ IsPosition keys key pos := by
  have hmono : ∀ (i j : ℕ) (hi : i < keys.length) (hj : j < keys.length), i < j →
      keys[i] < keys[j] := fun i j hi hj hij => List.pairwise_iff_getElem.mp hsorted i j hi hj hij
  intro fuel
  induction fuel with
  | zero => intro start stop _ _ h _ _ _; omega
  | succ fuel ih =>
      intro start stop h0 hstop hfuel hle hbelow habove
      rw [searchLoop]
      split_ifs with hcond
      · -- the middle index, as a natural number
        obtain ⟨mid, hmid⟩ : ∃ mid : ℕ, start + (stop - start) / 2 = mid :=
          ⟨(start + (stop - start) / 2).toNat, by omega⟩
        have hlt : mid < keys.length := by omega
        simp only [hmid, Int.toNat_natCast, hget mid hlt, ok_bind]
        split_ifs with heq hltk
        · refine ⟨mid, rfl, by omega, by omega, ?_, ?_⟩
          · intro i hi hpos
            rcases Nat.lt_or_ge i mid with h | h
            · exact le_of_lt (heq ▸ hmono i mid hi hlt h)
            · have : i = mid := by omega
              subst this; exact le_of_eq heq
          · intro i hi hpos
            exact heq ▸ hmono mid i hlt hi (by omega)
        · refine ih _ _ (by omega) hstop (by omega) (by omega) ?_ habove
          intro i hi hpos
          rcases Nat.lt_or_ge i mid with h | h
          · exact lt_trans (hmono i mid hi hlt h) hltk
          · have : i = mid := by omega
            subst this; exact hltk
        · have hgt : key < keys[mid] := lt_of_le_of_ne (not_lt.mp hltk) (Ne.symm heq)
          refine ih _ _ h0 (by omega) (by omega) (by omega) hbelow ?_
          intro i hi hpos
          rcases Nat.lt_or_ge mid i with h | h
          · exact lt_trans hgt (hmono mid i hlt hi h)
          · have : i = mid := by omega
            subst this; exact hgt
      · rw [assertThat_of (by omega), ok_bind]
        exact ⟨stop, rfl, by omega, hstop, fun i hi hpos => le_of_lt (hbelow i hi (by omega)),
          fun i hi hpos => habove i hi hpos⟩

lemma searchKeyPosition_spec {keys : List UInt32} {getKey : ℕ → Except Fault UInt32}
    (key : UInt32) (hsorted : keys.Pairwise (· < ·))
    (hget : ∀ i (h : i < keys.length), getKey i = .ok keys[i]) (hpos : 0 < keys.length)
    (hlen : keys.length < 2 ^ 31) :
    ∃ pos, searchKeyPosition keys.length getKey key = .ok pos ∧ IsPosition keys key pos := by
  rw [searchKeyPosition, assertThat_of hpos, ok_bind, toInt_of_lt (by omega)]
  exact searchLoop_spec key hsorted hget _ _ _ le_rfl (by omega) (by omega) (by omega)
    (fun i _ h => by omega) (fun i hi h => by omega)

/-- The search in terms of the place of the key: it finds the key there, or the place below. -/
theorem searchKeyPosition_cut {keys : List UInt32} {getKey : ℕ → Except Fault UInt32}
    (key : UInt32) (hsorted : keys.Pairwise (· < ·))
    (hget : ∀ i (h : i < keys.length), getKey i = .ok keys[i]) (hpos : 0 < keys.length)
    (hlen : keys.length < 2 ^ 31) {A B : List UInt32} (hkeys : keys = A ++ B)
    (hA : ∀ k ∈ A, k < key) (hB : ∀ k ∈ B, key ≤ k) :
    ∃ pos, searchKeyPosition keys.length getKey key = .ok pos ∧
      (key ∈ B ∧ pos = A.length ∧ getKey A.length = .ok key ∨
        key ∉ B ∧ pos + 1 = A.length ∧ (0 ≤ pos → ∃ k, getKey pos.toNat = .ok k ∧ k ≠ key)) := by
  obtain ⟨pos, e, h⟩ := searchKeyPosition_spec key hsorted hget hpos hlen
  have hlower := h.lower
  have hupper := h.upper
  have hl : keys.length = A.length + B.length := by rw [hkeys, List.length_append]
  have hmono := List.pairwise_iff_getElem.mp hsorted
  have hatA : ∀ i (hi : i < keys.length), i < A.length → keys[i] < key := by
    intro i hi hiA
    refine hA _ ?_
    simp only [hkeys, List.getElem_append_left hiA]
    exact List.getElem_mem hiA
  have hatB : ∀ i (hi : i < keys.length), A.length ≤ i → keys[i] ∈ B := by
    intro i hi hiA
    simp only [hkeys, List.getElem_append_right hiA]
    exact List.getElem_mem _
  refine ⟨pos, e, ?_⟩
  by_cases hmem : key ∈ B
  · obtain ⟨j, hj, hjk⟩ := List.getElem_of_mem hmem
    have hAlt : A.length < keys.length := by omega
    have hfirst : keys[A.length] = key := by
      refine le_antisymm ?_ (hB _ (hatB _ hAlt le_rfl))
      rw [← hjk]
      rcases Nat.eq_zero_or_pos j with rfl | hj0
      · simp only [hkeys, List.getElem_append_right le_rfl, Nat.sub_self]
        exact le_rfl
      · have hlt := hmono A.length (A.length + j) hAlt (by omega) (by omega)
        simp only [hkeys, List.getElem_append_right (Nat.le_add_right _ _),
          Nat.add_sub_cancel_left] at hlt ⊢
        exact le_of_lt hlt
    refine Or.inl ⟨hmem, ?_, by rw [hget _ hAlt, hfirst]⟩
    rcases lt_trichotomy pos A.length with hlt | heq | hgt
    · exact absurd (h.lt _ hAlt hlt) (by rw [hfirst]; exact lt_irrefl _)
    · exact heq
    · have hle := h.le (A.length + 1) (by omega) (by omega)
      have hlt := hmono A.length (A.length + 1) hAlt (by omega) (by omega)
      rw [hfirst] at hlt
      exact absurd hlt (not_lt_of_ge hle)
  · refine Or.inr ⟨hmem, ?_, ?_⟩
    · by_contra hcon
      rcases lt_or_gt_of_ne hcon with hlt | hgt
      · have hi : (pos + 1).toNat < keys.length := by omega
        exact absurd (h.lt _ hi (by omega)) (not_lt_of_gt (hatA _ hi (by omega)))
      · have hi : A.length < keys.length := by omega
        have hb := hatB _ hi le_rfl
        have hle := h.le _ hi (by omega)
        exact hmem (le_antisymm (hB _ hb) hle ▸ hb)
    · intro h0
      have hi : pos.toNat < keys.length := by omega
      refine ⟨keys[pos.toNat], hget _ hi, fun heq => ?_⟩
      rcases Nat.lt_or_ge pos.toNat A.length with hlt | hge
      · exact absurd heq (ne_of_lt (hatA _ hi hlt))
      · exact hmem (heq ▸ hatB _ hi hge)

end DbToy
