import DbToy.Lib.Odometer
import DbToy.Lib.Rooted

/-!
# Insertion at the edge of a B+ tree

Keys that come in order, upwards or downwards, are all inserted at one edge of the tree.  The sizes
of the nodes on that edge are the reading of an odometer: the leaf is its first wheel, and a node
that splits gives a tick to the node above it.  What the half on the edge has after a split is where
the wheel restarts.

* `edgeSize`: the size of the node on the edge at a height.
* `edgeSize_insert`, `splits_edge`: one insertion is one tick.
* `OnEdge`: the tree and its number of nodes after so many insertions at the edge.
-/

inductive Side where
  | left
  | right

namespace Side

variable {κ : Type} [LinearOrder κ]

/-- The key comes on this side of the old one. -/
def Beyond (old key : κ) : Side → Prop
  | left => key < old
  | right => old < key

end Side

namespace Alt

variable {κ τ : Type}

def edge (side : Side) (s : Alt κ τ) : τ :=
  match side with
  | .left => s.head
  | .right => s.last

lemma edge_mem (side : Side) (s : Alt κ τ) : s.edge side ∈ s.children := by
  cases side with
  | left => exact s.head_mem
  | right => exact s.last_mem

@[simp] lemma edge_one (side : Side) (c : τ) : (one c : Alt κ τ).edge side = c := by
  cases side <;> rfl

lemma edge_append (side : Side) (l : Alt κ τ) (k : κ) (r : Alt κ τ) : (l.append k r).edge side =
    match side with
    | .left => l.edge .left
    | .right => r.edge .right := by
  cases side with
  | left => cases l <;> rfl
  | right =>
      induction l with
      | one c => rfl
      | cons c k' rest ih => exact ih

variable [LinearOrder κ] {side : Side} {key : κ}

lemma childFor_edge {s : Alt κ τ} (h : ∀ k ∈ s.keys, side.Beyond k key) :
    s.childFor key = s.edge side := by
  induction s with
  | one c => cases side <;> rfl
  | cons c k rest ih =>
      have hk := h k List.mem_cons_self
      have hrest := ih fun k' hk' => h k' (List.mem_cons_of_mem _ hk')
      rw [childFor]
      cases side with
      | left => exact if_pos (le_of_lt hk)
      | right =>
          rw [if_neg (not_le_of_gt hk)]
          exact hrest

lemma put_edge {s r : Alt κ τ} (h : ∀ k ∈ s.keys, side.Beyond k key) :
    (s.put key r).edge side = r.edge side := by
  induction s with
  | one c => rfl
  | cons c k rest ih =>
      have hk := h k List.mem_cons_self
      have hrest := ih fun k' hk' => h k' (List.mem_cons_of_mem _ hk')
      rw [put]
      cases side with
      | left => rw [if_pos (le_of_lt hk), edge_append]
      | right =>
          rw [if_neg (not_le_of_gt hk)]
          exact hrest

end Alt

namespace SearchTree

open Odometer

variable {κ ν : Type} {L I : ℕ} {side : Side}

/-! ## The edge -/

/-- The cells of the leaf, or the keys of the inner node, at height `k` on the edge. -/
def edgeSize (side : Side) (k : ℕ) : (h : ℕ) → Tree κ ν h → ℕ
  | 0, t => if k = 0 then (Leaf.cells t).length else 0
  | h + 1, t => if k = h + 1 then (Inner.slots t).keys.length
      else edgeSize side k h ((Inner.slots t).edge side)

lemma edgeSize_self (h : ℕ) (t : Tree κ ν (h + 1)) :
    edgeSize side (h + 1) (h + 1) t = (Inner.slots t).keys.length := if_pos rfl

lemma edgeSize_of_le {k h : ℕ} (hk : k ≤ h) (t : Tree κ ν (h + 1)) :
    edgeSize side k (h + 1) t = edgeSize side k h ((Inner.slots t).edge side) :=
  if_neg (by omega)

/-- The node at height `k` as a wheel: what it can hold, and what its half on the edge has after it
has split. -/
def wheels (side : Side) (L I : ℕ) : ℕ → Wheel
  | 0 =>
      match side with
      | .left => ⟨L / 2 + 1, L - L / 2 - 1⟩
      | .right => ⟨L - L / 2, L / 2⟩
  | _ + 1 =>
      match side with
      | .left => ⟨I / 2, I - I / 2⟩
      | .right => ⟨I - I / 2, I / 2⟩

lemma cap_wheels_zero (hL : 0 < L) : (wheels side L I 0).cap = L := by
  cases side <;> simp only [wheels, Wheel.cap] <;> omega

lemma cap_wheels_succ (k : ℕ) : (wheels side L I (k + 1)).cap = I := by
  cases side <;> simp only [wheels, Wheel.cap] <;> omega

/-- The nodes on the edge below height `k` are all full. -/
def FullBelow (side : Side) (L I k h : ℕ) (t : Tree κ ν h) : Prop :=
  ∀ j < k, edgeSize side j h t = (wheels side L I j).cap

instance (k h : ℕ) (t : Tree κ ν h) : Decidable (FullBelow side L I k h t) :=
  inferInstanceAs (Decidable (∀ j < k, _))

lemma fullBelow_succ_iff {k h : ℕ} (hk : k ≤ h + 1) (t : Tree κ ν (h + 1)) :
    FullBelow side L I k (h + 1) t ↔ FullBelow side L I k h ((Inner.slots t).edge side) := by
  refine forall₂_congr fun j hj => ?_
  rw [edgeSize_of_le (by omega)]

variable [LinearOrder κ]

/-- The key belongs at the edge. -/
def AtEdge (side : Side) (key : κ) : (h : ℕ) → Tree κ ν h → Prop
  | 0, _ => True
  | h + 1, t => (∀ k ∈ (Inner.slots t).keys, side.Beyond k key) ∧
      AtEdge side key h ((Inner.slots t).edge side)

/-- A key beyond all cells belongs at the edge. -/
lemma atEdge_of_tight {key : κ} : ∀ {h : ℕ} {t : Tree κ ν h}, Tight h t →
    (∀ c ∈ cells h t, side.Beyond c.1 key) → AtEdge side key h t
  | 0, _, _, _ => trivial
  | h + 1, t, ht, hcells => by
      have hmem : ∀ {d : Tree κ ν h}, d ∈ (Inner.slots t).children → ∀ c ∈ cells h d,
          side.Beyond c.1 key := fun hd c hc => hcells c (List.mem_flatMap.mpr ⟨_, hd, hc⟩)
      refine ⟨?_, atEdge_of_tight (ht.1 _ ((Inner.slots t).edge_mem side))
        (hmem ((Inner.slots t).edge_mem side))⟩
      intro k hk
      obtain ⟨d, hd⟩ := (Inner.slots t).exists_pair hk
      obtain ⟨v, hv⟩ := exists_mem_of_lastKey (ht.2 (d, k) hd)
      exact hmem ((Inner.slots t).fst_mem_children hd) (k, v) hv

variable {c : κ × ν} {fresh : ℕ}

lemma full_iff_edge (hL : 0 < L) : ∀ {h : ℕ} {t : Tree κ ν h}, AtEdge side c.1 h t →
    (Full L I c.1 h t ↔ FullBelow side L I (h + 1) h t)
  | 0, t, _ => by
      constructor
      · intro hfull j hj
        obtain rfl : j = 0 := by omega
        rw [cap_wheels_zero hL]
        exact hfull
      · intro h
        have hzero := h 0 Nat.one_pos
        rwa [cap_wheels_zero hL] at hzero
  | h + 1, t, ht => by
      rw [Full, Alt.childFor_edge ht.1, full_iff_edge hL ht.2,
        ← fullBelow_succ_iff (Nat.le_refl (h + 1)) t, FullBelow, FullBelow]
      constructor
      · rintro ⟨hbelow, hkeys⟩ j hj
        rcases Nat.lt_succ_iff_lt_or_eq.mp hj with hj | rfl
        · exact hbelow j hj
        · rw [edgeSize_self, cap_wheels_succ, hkeys]
      · intro hall
        refine ⟨fun j hj => hall j (Nat.lt_succ_of_lt hj), ?_⟩
        have htop := hall (h + 1) (Nat.lt_succ_self _)
        rwa [edgeSize_self, cap_wheels_succ] at htop

/-- The nodes that split are those that the tick goes through. -/
lemma splits_edge (hL : 0 < L) : ∀ {h : ℕ} {t : Tree κ ν h}, AtEdge side c.1 h t →
    splits L I c.1 h t
      = ∑ k ∈ Finset.range (h + 1), if FullBelow side L I (k + 1) h t then 1 else 0
  | 0, t, ht => by
      rw [splits, Finset.sum_range_one]
      exact if_congr (full_iff_edge hL ht) rfl rfl
  | h + 1, t, ht => by
      rw [splits, Alt.childFor_edge ht.1, splits_edge hL ht.2, Finset.sum_range_succ _ (h + 1)]
      refine congrArg₂ (· + ·) (Finset.sum_congr rfl ?_) (if_congr (full_iff_edge hL ht) rfl rfl)
      intro k hk
      exact if_congr (fullBelow_succ_iff (by have := Finset.mem_range.mp hk; omega) t).symm rfl rfl

/-- What a tick makes of the size of a node on the edge. -/
def tick (side : Side) (L I k h : ℕ) (t : Tree κ ν h) : ℕ :=
  if FullBelow side L I k h t then
    if edgeSize side k h t = (wheels side L I k).cap then (wheels side L I k).rest
    else edgeSize side k h t + 1
  else edgeSize side k h t

omit [LinearOrder κ] in
lemma tick_of_le {k h : ℕ} (hk : k ≤ h) (t : Tree κ ν (h + 1)) :
    tick side L I k (h + 1) t = tick side L I k h ((Inner.slots t).edge side) := by
  rw [tick, tick, edgeSize_of_le hk]
  exact if_congr (fullBelow_succ_iff (by omega) t) rfl rfl

/-- An insertion below an inner node: the child on the edge is the one of the insertion there, and
the number of keys ticks. -/
lemma insert_succ_edge (hL : 0 < L) {h : ℕ} {t : Tree κ ν (h + 1)}
    (ht : AtEdge side c.1 (h + 1) t) :
    (Inner.slots ((insert L I c fresh (h + 1) t).1.edge side)).edge side
        = (insert L I c fresh h ((Inner.slots t).edge side)).1.edge side ∧
      (Inner.slots ((insert L I c fresh (h + 1) t).1.edge side)).keys.length
        = tick side L I (h + 1) (h + 1) t := by
  have hchild := Alt.childFor_edge ht.1
  have hput := Alt.put_edge (r := (insert L I c fresh h ((Inner.slots t).edge side)).1) ht.1
  have hlen := (Inner.slots t).length_keys_put c.1
    (insert L I c fresh h ((Inner.slots t).edge side)).1
  have hle := @insert_keys_le κ ν _ L I c fresh h ((Inner.slots t).edge side)
  have hkeys := @insert_keys_ne_nil κ ν _ L I c fresh h ((Inner.slots t).edge side)
  rw [full_iff_edge hL ht.2, ← fullBelow_succ_iff (Nat.le_refl _)] at hkeys
  rw [tick, edgeSize_self, cap_wheels_succ]
  by_cases hfull : (insert L I c fresh h ((Inner.slots t).childFor c.1)).1.keys ≠ [] ∧
    (Inner.slots t).keys.length = I
  · obtain ⟨left, k, right, happend, hleft, heq⟩ := insert_succ_of_full c fresh hfull
    rw [hchild] at hfull happend heq
    rw [happend] at hput hlen
    rw [Alt.keys_append, List.length_append, List.length_cons] at hlen
    have hpos := List.length_pos_of_ne_nil hfull.1
    rw [if_pos (hkeys.mp hfull.1), if_pos hfull.2, heq]
    rw [Alt.edge_append] at hput
    cases side with
    | left => exact ⟨hput, hleft⟩
    | right =>
        refine ⟨hput, ?_⟩
        show right.keys.length = I - I / 2
        omega
  · have hnode : (insert L I c fresh (h + 1) t).1.edge side = Inner.mk (Inner.pid t)
        ((Inner.slots t).put c.1 (insert L I c fresh h ((Inner.slots t).edge side)).1) := by
      rw [insert_succ_of_not c fresh hfull, hchild]
      exact Alt.edge_one side _
    rw [hchild] at hfull
    refine ⟨(congrArg (fun s : Inner κ (Tree κ ν h) => s.slots.edge side) hnode).trans hput,
      ((congrArg (fun s : Inner κ (Tree κ ν h) => s.slots.keys.length) hnode).trans hlen).trans ?_⟩
    by_cases hsplit : (insert L I c fresh h ((Inner.slots t).edge side)).1.keys = []
    · rw [if_neg (hkeys.not.mp (not_not.mpr hsplit)), hsplit]
      rfl
    · have hpos := List.length_pos_of_ne_nil hsplit
      rw [if_pos (hkeys.mp hsplit), if_neg fun hI => hfull ⟨hsplit, hI⟩]
      omega

/-- **An insertion at the edge is a tick of it.** -/
theorem edgeSize_insert (hL : 0 < L) : ∀ {h : ℕ} {t : Tree κ ν h}, AtEdge side c.1 h t →
    ∀ k ≤ h, edgeSize side k h ((insert L I c fresh h t).1.edge side) = tick side L I k h t
  | 0, t, _, k, hk => by
      obtain rfl := Nat.le_zero.mp hk
      have hlen := length_putCell c (Leaf.cells t)
      have hbelow : FullBelow side L I 0 0 t := fun j hj => absurd hj (Nat.not_lt_zero j)
      rw [tick, if_pos hbelow, cap_wheels_zero hL]
      by_cases hfull : (Leaf.cells t).length = L
      · obtain ⟨p, -, heq⟩ := @insert_zero_of_full _ _ _ L I c fresh t hfull
        refine Eq.trans ?_ (if_pos hfull).symm
        rw [heq]
        cases side with
        | left =>
            show ((putCell c (Leaf.cells t)).take (L / 2 + 1)).length = L / 2 + 1
            rw [List.length_take, hlen]
            omega
        | right =>
            show ((putCell c (Leaf.cells t)).drop (L / 2 + 1)).length = L - L / 2
            rw [List.length_drop, hlen]
            omega
      · refine Eq.trans ?_ (if_neg hfull).symm
        rw [insert_zero_of_ne c fresh hfull]
        cases side <;> exact hlen
  | h + 1, t, ht, k, hk => by
      obtain ⟨hedge, hkeys⟩ := @insert_succ_edge κ ν L I side _ c fresh hL h t ht
      rcases Nat.le_succ_iff.mp hk with hk | rfl
      · calc edgeSize side k (h + 1) ((insert L I c fresh (h + 1) t).1.edge side)
            = edgeSize side k h ((insert L I c fresh h ((Inner.slots t).edge side)).1.edge side) :=
              (edgeSize_of_le hk _).trans (congrArg (edgeSize side k h) hedge)
          _ = tick side L I k h ((Inner.slots t).edge side) := edgeSize_insert hL ht.2 k hk
          _ = tick side L I k (h + 1) t := (tick_of_le hk t).symm
      · exact (edgeSize_self h _).trans hkeys

/-! ## Trees that grew at the edge -/

/-- A tree after `n` insertions at the edge, with so many nodes. -/
structure OnEdge (side : Side) (L I n : ℕ) (R : Rooted κ ν) (nodes : ℕ) : Prop where
  sizes : ∀ k ≤ R.height, edgeSize side k R.height R.tree = reading (wheels side L I) k n
  top : ticks (wheels side L I) (R.height + 1) n = 0
  low : R.height ≠ 0 → ticks (wheels side L I) R.height n ≠ 0
  nodes_eq : nodes = places (wheels side L I) R.height n

namespace OnEdge

variable {n nodes : ℕ} {R : Rooted κ ν}

omit [LinearOrder κ] in
lemma fullBelow_iff (hR : OnEdge side L I n R nodes) {k : ℕ} (hk : k ≤ R.height + 1) :
    FullBelow side L I k R.height R.tree ↔ Carries (wheels side L I) k n := by
  refine forall₂_congr fun j hj => ?_
  rw [hR.sizes j (by omega)]

omit [LinearOrder κ] in
lemma tick_eq (hR : OnEdge side L I n R nodes) {k : ℕ} (hk : k ≤ R.height) :
    tick side L I k R.height R.tree = reading (wheels side L I) k (n + 1) := by
  rw [tick, reading_succ, hR.sizes k hk]
  exact if_congr (hR.fullBelow_iff (by omega)) rfl rfl

lemma splits_eq (hL : 0 < L) (hR : OnEdge side L I n R nodes)
    (hedge : AtEdge side c.1 R.height R.tree) : nodes + splits L I c.1 R.height R.tree
      = places (wheels side L I) R.height (n + 1) := by
  rw [hR.nodes_eq, places_succ, splits_edge hL hedge]
  refine congrArg (_ + ·) (Finset.sum_congr rfl ?_)
  intro k hk
  exact if_congr (hR.fullBelow_iff (by have := Finset.mem_range.mp hk; omega)) rfl rfl

/-- **One insertion more.** -/
theorem insert (hL : 0 < L) (hI : 0 < I) (hR : OnEdge side L I n R nodes)
    (hedge : AtEdge side c.1 R.height R.tree) :
    OnEdge side L I (n + 1) (R.insert L I c nodes).1 (R.insert L I c nodes).2 := by
  have hfull := (full_iff_edge (I := I) hL hedge).trans (hR.fullBelow_iff (Nat.le_refl _))
  have hkeys := @insert_keys_ne_nil κ ν _ L I c nodes R.height R.tree
  have hnext := @SearchTree.insert_snd κ ν _ L I c nodes R.height R.tree
  have hsizes := @edgeSize_insert κ ν L I side _ c nodes hL R.height R.tree hedge
  have hsum := hR.splits_eq hL hedge
  have htop := ticks_succ (wheels side L I) n (R.height + 1)
  have hlow := ticks_succ (wheels side L I) n R.height
  rw [hR.top, Nat.zero_add] at htop
  rw [hsum] at hnext
  rw [hfull] at hkeys
  rcases R.insert_cases c nodes with ⟨t, next, heq, hr⟩ | ⟨l, k, r, next, heq, hr⟩
  · rw [heq] at hkeys hnext hsizes
    rw [if_neg (hkeys.not.mp fun h => h rfl)] at htop
    rw [hr]
    refine ⟨fun j hj => ?_, htop, fun hne => ?_, hnext⟩
    · rw [← hR.tick_eq hj, ← hsizes j hj]
      exact congrArg (edgeSize side j R.height) (Alt.edge_one side t).symm
    · rw [hlow]
      exact Nat.ne_of_gt (Nat.add_pos_left (Nat.pos_iff_ne_zero.mpr (hR.low hne)) _)
  · -- the tick goes through the root, and the next wheel shows one
    rw [heq] at hkeys hnext hsizes
    rw [if_pos (hkeys.mp (List.cons_ne_nil _ _))] at htop
    have hone : 1 ≤ (wheels side L I (R.height + 1)).cap := (cap_wheels_succ R.height).symm ▸ hI
    have hturns : ticks (wheels side L I) (R.height + 1 + 1) (n + 1) = 0 := by
      rw [ticks, htop]
      exact Wheel.turns_of_le _ hone
    rw [hr]
    refine ⟨fun j hj => ?_, hturns, fun _ => by rw [htop]; exact Nat.one_ne_zero, ?_⟩
    · rcases Nat.le_succ_iff.mp hj with hj | rfl
      · rw [← hR.tick_eq hj, ← hsizes j hj]
        exact edgeSize_of_le hj _
      · rw [reading, htop, Wheel.shows_of_le _ hone]
        exact edgeSize_self R.height _
    · show next + 1 = places _ (R.height + 1) (n + 1)
      rw [show next = _ from hnext, places, places, Finset.sum_range_succ _ (R.height + 1), hturns]

end OnEdge

end SearchTree
