import DbToy.Lib.Alternating
import Mathlib.Algebra.GroupWithZero.Nat
import Mathlib.Data.List.Sort

/-!
# B+ trees as values

A B+ tree of a given height over ordered keys, with a number (`pid`) for each node, as a value that
says nothing about where its nodes are stored.

* `Ordered`: each separator is between the keys of the subtrees on its two sides.  Then the leaf
  where a key belongs is the one that has it, if any has (`mem_leafFor`).
* `Tight`: each separator is the greatest key on its left.  A tight tree is ordered if its cells
  are (`ordered_of_tight`).
* `insert`: insertion with splits, the new nodes numbered upwards from `fresh`.  On the cells of a
  tight tree it is sorted insertion, and it keeps the tree tight (`insert_spec`).
-/

namespace SearchTree

variable {κ ν : Type}

structure Leaf (κ ν : Type) where
  pid : ℕ
  cells : List (κ × ν)

structure Inner (κ τ : Type) where
  pid : ℕ
  slots : Alt κ τ

/-- Trees by height. -/
def Tree (κ ν : Type) : ℕ → Type
  | 0 => Leaf κ ν
  | h + 1 => Inner κ (Tree κ ν h)

def pid : (h : ℕ) → Tree κ ν h → ℕ
  | 0, t => Leaf.pid t
  | _ + 1, t => Inner.pid t

/-- The cells from left to right. -/
def cells : (h : ℕ) → Tree κ ν h → List (κ × ν)
  | 0, t => Leaf.cells t
  | h + 1, t => (Inner.slots t).children.flatMap (cells h)

/-- The numbers of all nodes. -/
def pids : (h : ℕ) → Tree κ ν h → List ℕ
  | 0, t => [Leaf.pid t]
  | h + 1, t => Inner.pid t :: (Inner.slots t).children.flatMap (pids h)

lemma pid_mem_pids : ∀ (h : ℕ) (t : Tree κ ν h), pid h t ∈ pids h t
  | 0, t => List.mem_singleton_self (Leaf.pid t)
  | _ + 1, _ => List.mem_cons_self

lemma pids_eq_cons : ∀ (h : ℕ) (t : Tree κ ν h), pids h t = pid h t :: (pids h t).tail
  | 0, _ => rfl
  | _ + 1, _ => rfl

/-- With all numbers different, a node belongs to one tree only. -/
lemma eq_of_pid_mem {h : ℕ} {l : List (Tree κ ν h)} (hl : (l.flatMap (pids h)).Nodup)
    {d e : Tree κ ν h} (hd : d ∈ l) (he : e ∈ l) (hmem : pid h e ∈ pids h d) : e = d := by
  obtain ⟨C, D, rfl⟩ := List.append_of_mem hd
  rw [List.flatMap_append, List.flatMap_cons] at hl
  have hC := List.disjoint_of_nodup_append hl
  have hD := List.disjoint_of_nodup_append (List.Nodup.of_append_right hl)
  rcases List.mem_append.mp he with he | he
  · exact absurd (List.mem_append_left _ hmem)
      (hC (List.mem_flatMap.mpr ⟨e, he, pid_mem_pids h e⟩))
  · rcases List.mem_cons.mp he with heq | he
    · exact heq
    · exact absurd (List.mem_flatMap.mpr ⟨e, he, pid_mem_pids h e⟩) (hD hmem)

/-- The number of a tree is not among those below another. -/
lemma pid_notMem_tail {h : ℕ} {l : List (Tree κ ν h)} (hl : (l.flatMap (pids h)).Nodup)
    {d e : Tree κ ν h} (hd : d ∈ l) (he : e ∈ l) : pid h e ∉ (pids h d).tail := by
  intro hmem
  have heq := eq_of_pid_mem hl hd he (List.mem_of_mem_tail hmem)
  have hnodup := (List.nodup_flatMap.mp hl).1 d hd
  rw [pids_eq_cons] at hnodup
  exact (List.nodup_cons.mp hnodup).1 (heq ▸ hmem)

/-- With all numbers different, a tree is at one place only. -/
lemma notMem_of_nodup {h : ℕ} {C D : List (Tree κ ν h)} {d : Tree κ ν h}
    (hl : ((C ++ d :: D).flatMap (pids h)).Nodup) : d ∉ C := by
  rw [List.flatMap_append, List.flatMap_cons] at hl
  intro hd
  exact List.disjoint_of_nodup_append hl (List.mem_flatMap.mpr ⟨d, hd, pid_mem_pids h d⟩)
    (List.mem_append_left _ (pid_mem_pids h d))

/-- With all numbers different, no root on the right has the number of one on the left. -/
lemma pid_notMem_of_nodup {h : ℕ} {C D : List (Tree κ ν h)} (hl : ((C ++ D).flatMap (pids h)).Nodup)
    {d : Tree κ ν h} (hd : d ∈ C) : pid h d ∉ D.map (pid h) := by
  intro hmem
  obtain ⟨e, he, heq⟩ := List.mem_map.mp hmem
  rw [List.flatMap_append] at hl
  exact List.disjoint_of_nodup_append hl (List.mem_flatMap.mpr ⟨d, hd, heq ▸ pid_mem_pids h d⟩)
    (List.mem_flatMap.mpr ⟨e, he, pid_mem_pids h e⟩)

/-- A tree has at least one node for each level. -/
lemma height_lt_length_pids : ∀ (h : ℕ) (t : Tree κ ν h), h < (pids h t).length
  | 0, _ => Nat.zero_lt_one
  | h + 1, t => by
      have ih := height_lt_length_pids h (Inner.slots t).head
      obtain ⟨C, D, hsplit⟩ := List.append_of_mem (Inner.slots t).head_mem
      rw [pids, hsplit, List.flatMap_append, List.flatMap_cons, List.length_cons,
        List.length_append, List.length_append]
      omega

/-- No leaf is without a cell and no inner node without a key. -/
def NonEmpty : (h : ℕ) → Tree κ ν h → Prop
  | 0, t => Leaf.cells t ≠ []
  | h + 1, t => (Inner.slots t).keys ≠ [] ∧ ∀ c ∈ (Inner.slots t).children, NonEmpty h c

lemma NonEmpty.cells_ne_nil : ∀ {h : ℕ} {t : Tree κ ν h}, NonEmpty h t → cells h t ≠ []
  | 0, _, ht => ht
  | h + 1, t, ht => by
      intro hnil
      have hc := (ht.2 _ (Inner.slots t).head_mem).cells_ne_nil
      rw [cells, List.flatMap_eq_nil_iff] at hnil
      exact hc (hnil _ (Inner.slots t).head_mem)

/-! ## Sorted cells -/

/-- The greatest key of sorted cells. -/
def lastKey (l : List (κ × ν)) : Option κ := l.getLast?.map Prod.fst

lemma lastKey_append_of_ne_nil (X : List (κ × ν)) {Y : List (κ × ν)} (h : Y ≠ []) :
    lastKey (X ++ Y) = lastKey Y := by
  rw [lastKey, lastKey, List.getLast?_append_of_ne_nil _ h]

lemma exists_mem_of_lastKey {l : List (κ × ν)} {k : κ} (h : lastKey l = some k) :
    ∃ v, (k, v) ∈ l := by
  rw [lastKey, Option.map_eq_some_iff] at h
  obtain ⟨⟨k', v⟩, hv, rfl⟩ := h
  exact ⟨v, List.mem_of_getLast? hv⟩

/-- The greatest key below several trees is that of the last one. -/
lemma lastKey_children {h : ℕ} {s : Alt κ (Tree κ ν h)} (hs : NonEmpty h s.last) :
    lastKey (s.children.flatMap (cells h)) = lastKey (cells h s.last) := by
  obtain ⟨front, hfront⟩ := s.children_eq_last
  rw [hfront, List.flatMap_append, List.flatMap_singleton,
    lastKey_append_of_ne_nil _ hs.cells_ne_nil]

section Cells

variable [LinearOrder κ]

/-- The keys are strictly increasing. -/
def Sorted (l : List (κ × ν)) : Prop := l.Pairwise fun a b => a.1 < b.1

lemma sorted_append {X Y : List (κ × ν)} :
    Sorted (X ++ Y) ↔ Sorted X ∧ Sorted Y ∧ ∀ x ∈ X, ∀ y ∈ Y, x.1 < y.1 :=
  List.pairwise_append

/-- A sorted list has at most one cell for each key. -/
lemma Sorted.eq_of_key {l : List (κ × ν)} (h : Sorted l) {a b : κ × ν} (ha : a ∈ l) (hb : b ∈ l)
    (hab : a.1 = b.1) : a = b := by
  have hnodup : (l.map Prod.fst).Nodup := List.pairwise_map.mpr (h.imp ne_of_lt)
  exact List.inj_on_of_nodup_map hnodup ha hb hab

/-- The cell of a key, if there is one. -/
def lookup (key : κ) (l : List (κ × ν)) : Option (κ × ν) := l.find? fun c => decide (c.1 = key)

lemma Sorted.lookup_eq_some {l : List (κ × ν)} (h : Sorted l) {key : κ} {c : κ × ν} :
    lookup key l = some c ↔ c ∈ l ∧ c.1 = key := by
  constructor
  · intro hc
    exact ⟨List.mem_of_find?_eq_some hc, by simpa using List.find?_some hc⟩
  · rintro ⟨hmem, hkey⟩
    rw [lookup]
    cases hfind : l.find? fun c => decide (c.1 = key) with
    | none => exact absurd hkey (by simpa using List.find?_eq_none.mp hfind c hmem)
    | some d =>
        have hd : d.1 = key := by simpa using List.find?_some hfind
        rw [h.eq_of_key (List.mem_of_find?_eq_some hfind) hmem (hd.trans hkey.symm)]

lemma lookup_eq_none {l : List (κ × ν)} {key : κ} :
    lookup key l = none ↔ key ∉ l.map Prod.fst := by
  rw [lookup, List.find?_eq_none, List.mem_map]
  constructor
  · rintro h ⟨c, hc, hkey⟩
    exact h c hc (by simpa using hkey)
  · intro h c hc hkey
    exact h ⟨c, hc, by simpa using hkey⟩

lemma lookup_append (key : κ) (l m : List (κ × ν)) :
    lookup key (l ++ m) = (lookup key l).or (lookup key m) :=
  List.find?_append

lemma lookup_singleton (key : κ) (c : κ × ν) :
    lookup key [c] = if c.1 = key then some c else none := by
  by_cases h : c.1 = key <;> simp [lookup, h]

/-- Sorted insertion. -/
def putCell (c : κ × ν) (l : List (κ × ν)) : List (κ × ν) :=
  l.orderedInsert (fun a b => a.1 ≤ b.1) c

lemma putCell_append {c : κ × ν} : ∀ {X Y : List (κ × ν)}, (∀ x ∈ X, x.1 < c.1) →
    (∀ y ∈ Y, c.1 < y.1) → putCell c (X ++ Y) = X ++ c :: Y
  | [], [], _, _ => rfl
  | [], y :: Y, _, hY =>
      List.orderedInsert_cons_of_le _ _ (le_of_lt (hY y List.mem_cons_self))
  | x :: X, Y, hX, hY => by
      have hx : ¬c.1 ≤ x.1 := not_le_of_gt (hX x List.mem_cons_self)
      have ih := putCell_append (fun y hy => hX y (List.mem_cons_of_mem _ hy)) hY
      rw [putCell] at ih ⊢
      rw [List.cons_append, List.orderedInsert_of_not_le
        (fun a b : κ × ν => a.1 ≤ b.1) _ hx, ih, List.cons_append]

/-- Where a key cuts sorted cells that do not have it. -/
lemma exists_cells_cut {key : κ} : ∀ {l : List (κ × ν)}, Sorted l → (∀ c ∈ l, c.1 ≠ key) →
    ∃ A B, l = A ++ B ∧ (∀ a ∈ A, a.1 < key) ∧ ∀ b ∈ B, key < b.1
  | [], _, _ => ⟨[], [], rfl, by simp, by simp⟩
  | c :: l, h, hne => by
      obtain ⟨hc, hl⟩ := List.pairwise_cons.mp h
      rcases lt_or_gt_of_ne (hne c List.mem_cons_self) with hlt | hgt
      · obtain ⟨A, B, e, hA, hB⟩ :=
          exists_cells_cut hl fun d hd => hne d (List.mem_cons_of_mem _ hd)
        refine ⟨c :: A, B, by rw [e, List.cons_append], ?_, hB⟩
        intro a ha
        rcases List.mem_cons.mp ha with rfl | ha
        · exact hlt
        · exact hA a ha
      · refine ⟨[], c :: l, rfl, by simp, ?_⟩
        intro b hb
        rcases List.mem_cons.mp hb with rfl | hb
        · exact hgt
        · exact lt_trans hgt (hc b hb)

/-- A new cell is found where it was put in, and every other as before. -/
lemma lookup_putCell {c : κ × ν} {l : List (κ × ν)} (h : Sorted l) (hne : ∀ d ∈ l, d.1 ≠ c.1)
    (key : κ) : lookup key (putCell c l) = (lookup key l).or (lookup key [c]) := by
  obtain ⟨A, B, rfl, hA, hB⟩ := exists_cells_cut h hne
  rw [putCell_append hA hB, lookup_append, lookup_append, ← List.singleton_append, lookup_append,
    lookup_singleton]
  by_cases hkey : c.1 = key
  · have hnone : lookup key B = none := lookup_eq_none.mpr fun hmem => by
      obtain ⟨b, hb, heq⟩ := List.mem_map.mp hmem
      exact ne_of_gt (hB b hb) (heq.trans hkey.symm)
    rw [hnone, Option.or_none, Option.or_none]
  · rw [if_neg hkey, Option.none_or, Option.or_none]

lemma putCell_middle {c : κ × ν} {X Y Z : List (κ × ν)} (hX : ∀ x ∈ X, x.1 < c.1)
    (hZ : ∀ z ∈ Z, c.1 < z.1) (hY : Sorted Y) (hne : ∀ y ∈ Y, y.1 ≠ c.1) :
    putCell c (X ++ (Y ++ Z)) = X ++ (putCell c Y ++ Z) := by
  obtain ⟨A, B, rfl, hA, hB⟩ := exists_cells_cut hY hne
  rw [putCell_append hA hB, List.append_assoc, ← List.append_assoc X,
    putCell_append (X := X ++ A) (Y := B ++ Z)]
  · simp only [List.append_assoc, List.cons_append]
  · intro x hx
    rcases List.mem_append.mp hx with hx | hx
    · exact hX x hx
    · exact hA x hx
  · intro y hy
    rcases List.mem_append.mp hy with hy | hy
    · exact hB y hy
    · exact hZ y hy

lemma insertIdx_append {α : Type} (x : α) : ∀ A B : List α,
    (A ++ B).insertIdx A.length x = A ++ x :: B
  | [], _ => List.insertIdx_zero
  | a :: A, B => by
      rw [List.cons_append, List.length_cons, List.insertIdx_succ_cons, insertIdx_append x A B,
        List.cons_append]

lemma insertIdx_succ_append {α : Type} (x y : α) (A B : List α) :
    (A ++ x :: B).insertIdx (A.length + 1) y = A ++ x :: y :: B := by
  have h := insertIdx_append y (A ++ [x]) B
  rwa [List.length_append, List.length_singleton, List.append_assoc, List.append_assoc] at h

/-- A list is cut at each of its elements. -/
lemma exists_getElem?_cut {α : Type} {l : List α} {i : ℕ} {x : α} (h : l[i]? = some x) :
    ∃ A B, l = A ++ x :: B ∧ A.length = i := by
  obtain ⟨hlt, rfl⟩ := List.getElem?_eq_some_iff.mp h
  refine ⟨l.take i, l.drop (i + 1), ?_, ?_⟩
  · rw [List.getElem_cons_drop, List.take_append_drop]
  · rw [List.length_take]
    omega

/-- The number of cells with a smaller key. -/
def rank (key : κ) (l : List (κ × ν)) : ℕ := l.countP fun c => decide (c.1 < key)

/-- Where a key cuts sorted cells. -/
lemma exists_rank_cut (key : κ) : ∀ {l : List (κ × ν)}, Sorted l →
    ∃ A B, l = A ++ B ∧ A.length = rank key l ∧ (∀ a ∈ A, a.1 < key) ∧ ∀ b ∈ B, key ≤ b.1
  | [], _ => ⟨[], [], rfl, rfl, by simp, by simp⟩
  | c :: l, h => by
      obtain ⟨hc, hl⟩ := List.pairwise_cons.mp h
      obtain ⟨A, B, e, hlen, hA, hB⟩ := exists_rank_cut key hl
      by_cases hlt : c.1 < key
      · refine ⟨c :: A, B, by rw [e, List.cons_append], ?_, ?_, hB⟩
        · rw [rank, List.countP_cons_of_pos (by simpa using hlt), List.length_cons, hlen, rank]
        · intro a ha
          rcases List.mem_cons.mp ha with rfl | ha
          · exact hlt
          · exact hA a ha
      · have hge : ∀ b ∈ c :: l, key ≤ b.1 := by
          intro b hb
          rcases List.mem_cons.mp hb with rfl | hb
          · exact not_lt.mp hlt
          · exact le_trans (not_lt.mp hlt) (le_of_lt (hc b hb))
        refine ⟨[], c :: l, rfl, ?_, by simp, hge⟩
        rw [rank, List.countP_eq_zero.mpr fun b hb => by simpa using hge b hb]
        rfl

/-- The rank of a cell's key is the place of the cell. -/
lemma Sorted.rank_cut {l : List (κ × ν)} (hl : Sorted l) {c : κ × ν} (hc : c ∈ l) :
    ∃ A B, l = A ++ c :: B ∧ A.length = rank c.1 l := by
  obtain ⟨A, B, rfl, hlen, hA, hB⟩ := exists_rank_cut c.1 hl
  have hcB := (List.mem_append.mp hc).resolve_left fun h => lt_irrefl _ (hA c h)
  cases B with
  | nil => exact absurd hcB List.not_mem_nil
  | cons b B =>
      rcases List.mem_cons.mp hcB with rfl | hcB
      · exact ⟨A, B, rfl, hlen⟩
      · have hlt := (List.pairwise_cons.mp (sorted_append.mp hl).2.1).1 c hcB
        exact absurd hlt (not_lt_of_ge (hB b List.mem_cons_self))

lemma mem_putCell {c d : κ × ν} {l : List (κ × ν)} : d ∈ putCell c l ↔ d = c ∨ d ∈ l :=
  List.mem_orderedInsert _

lemma length_putCell (c : κ × ν) (l : List (κ × ν)) : (putCell c l).length = l.length + 1 :=
  List.orderedInsert_length _ _ _

lemma putCell_ne_nil (c : κ × ν) (l : List (κ × ν)) : putCell c l ≠ [] := by
  intro h
  have hl := length_putCell c l
  rw [h] at hl
  exact absurd hl (by simp)

lemma sorted_putCell {c : κ × ν} {l : List (κ × ν)} (h : Sorted l) (hne : ∀ d ∈ l, d.1 ≠ c.1) :
    Sorted (putCell c l) := by
  obtain ⟨A, B, rfl, hA, hB⟩ := exists_cells_cut h hne
  obtain ⟨hsA, hsB, hAB⟩ := sorted_append.mp h
  rw [putCell_append hA hB]
  refine sorted_append.mpr ⟨hsA, List.pairwise_cons.mpr ⟨hB, hsB⟩, ?_⟩
  intro a ha b hb
  rcases List.mem_cons.mp hb with rfl | hb
  · exact hA a ha
  · exact hAB a ha b hb

lemma le_of_lastKey {l : List (κ × ν)} (hl : Sorted l) {k : κ} (h : lastKey l = some k) :
    ∀ c ∈ l, c.1 ≤ k := by
  intro c hc
  rw [lastKey, Option.map_eq_some_iff] at h
  obtain ⟨last, hlast, rfl⟩ := h
  obtain ⟨front, rfl⟩ := List.getLast?_eq_some_iff.mp hlast
  rcases List.mem_append.mp hc with hc | hc
  · exact le_of_lt ((sorted_append.mp hl).2.2 c hc last (List.mem_singleton_self _))
  · rw [List.mem_singleton.mp hc]

/-- A smaller key does not change the greatest one. -/
lemma lastKey_putCell {c : κ × ν} {l : List (κ × ν)} (hl : Sorted l) (hne : ∀ d ∈ l, d.1 ≠ c.1)
    {k : κ} (h : lastKey l = some k) (hck : c.1 ≤ k) : lastKey (putCell c l) = some k := by
  obtain ⟨v, hv⟩ := exists_mem_of_lastKey h
  have hlt : c.1 < k := lt_of_le_of_ne hck fun heq => hne _ hv heq.symm
  obtain ⟨A, B, rfl, hA, hB⟩ := exists_cells_cut hl hne
  have hBne : B ≠ [] := by
    rintro rfl
    rw [List.append_nil] at hv
    exact absurd (hA _ hv) (not_lt_of_gt hlt)
  rw [lastKey_append_of_ne_nil _ hBne] at h
  rw [putCell_append hA hB, lastKey_append_of_ne_nil _ (List.cons_ne_nil _ _),
    ← List.singleton_append, lastKey_append_of_ne_nil _ hBne, h]

end Cells

/-! ## Order -/

section Order

variable [LinearOrder κ]

/-- Each separator is at least every key on its left and less than every key on its right. -/
def Ordered : (h : ℕ) → Tree κ ν h → Prop
  | 0, t => Sorted (Leaf.cells t)
  | h + 1, t => (∀ c ∈ (Inner.slots t).children, Ordered h c) ∧
      (Inner.slots t).Sep (fun c k => ∀ x ∈ cells h c, x.1 ≤ k) fun k c => ∀ x ∈ cells h c, k < x.1

/-- The leaf where a key belongs. -/
def leafFor (key : κ) : (h : ℕ) → Tree κ ν h → Leaf κ ν
  | 0, t => t
  | h + 1, t => leafFor key h ((Inner.slots t).childFor key)

lemma leafFor_cells (key : κ) : ∀ (h : ℕ) (t : Tree κ ν h),
    ∀ x ∈ (leafFor key h t).cells, x ∈ cells h t
  | 0, _, _, hx => hx
  | h + 1, t, x, hx => List.mem_flatMap.mpr
      ⟨_, (Inner.slots t).childFor_mem key, leafFor_cells key h _ x hx⟩

lemma leafFor_pid (key : κ) : ∀ (h : ℕ) (t : Tree κ ν h), (leafFor key h t).pid ∈ pids h t
  | 0, t => List.mem_singleton_self (Leaf.pid t)
  | h + 1, t => List.mem_cons_of_mem _ (List.mem_flatMap.mpr
      ⟨_, (Inner.slots t).childFor_mem key, leafFor_pid key h _⟩)

/-- Around the place of a key the cells of an ordered node are cut: less on the left, greater on
the right. -/
lemma Ordered.cut {h : ℕ} {t : Tree κ ν (h + 1)} (ht : Ordered (h + 1) t) (key : κ) :
    ∃ A B C D, (Inner.slots t).keys = A ++ B ∧
      (Inner.slots t).children = C ++ (Inner.slots t).childFor key :: D ∧ C.length = A.length ∧
      (∀ k ∈ A, k < key) ∧ (∀ k ∈ B, key ≤ k) ∧
      (∀ x ∈ C.flatMap (cells h), x.1 < key) ∧ (∀ x ∈ D.flatMap (cells h), key < x.1) ∧
      ∀ r, ((Inner.slots t).put key r).keys = A ++ (r.keys ++ B) ∧
        ((Inner.slots t).put key r).children = C ++ (r.children ++ D) := by
  obtain ⟨A, B, C, D, hkeys, hchildren, hlen, hA, hput, hsep⟩ := (Inner.slots t).exists_cut key
  obtain ⟨hB, hC, hD⟩ := hsep _ _ ht.2
  refine ⟨A, B, C, D, hkeys, hchildren, hlen, hA, hB, ?_, ?_, hput⟩
  · intro x hx
    obtain ⟨d, hd, hx⟩ := List.mem_flatMap.mp hx
    obtain ⟨k, hk, hle⟩ := hC d hd
    exact lt_of_le_of_lt (hle x hx) hk
  · intro x hx
    obtain ⟨d, hd, hx⟩ := List.mem_flatMap.mp hx
    obtain ⟨k, hk, hlt⟩ := hD d hd
    exact lt_of_le_of_lt hk (hlt x hx)

/-- **The leaf where a key belongs has its cell**, if the tree has one. -/
theorem mem_leafFor {key : κ} : ∀ {h : ℕ} {t : Tree κ ν h}, Ordered h t →
    ∀ x ∈ cells h t, x.1 = key → x ∈ (leafFor key h t).cells
  | 0, _, _, _, hx, _ => hx
  | h + 1, t, ht, x, hx, hkey => by
      obtain ⟨A, B, C, D, -, hchildren, -, -, -, hC, hD, -⟩ := ht.cut key
      refine mem_leafFor (ht.1 _ ((Inner.slots t).childFor_mem key)) x ?_ hkey
      rw [cells, hchildren, List.flatMap_append, List.flatMap_cons, List.mem_append,
        List.mem_append] at hx
      rcases hx with hx | hx | hx
      · exact absurd hkey (ne_of_lt (hC x hx))
      · exact hx
      · exact absurd hkey (ne_of_gt (hD x hx))

lemma Ordered.leafFor_sorted {key : κ} : ∀ {h : ℕ} {t : Tree κ ν h}, Ordered h t →
    Sorted (leafFor key h t).cells
  | 0, _, ht => ht
  | h + 1, t, ht =>
      @Ordered.leafFor_sorted key h _ (ht.1 _ ((Inner.slots t).childFor_mem key))

/-! ## Ranges -/

def inRange (lo hi : κ) (c : κ × ν) : Bool := decide (lo ≤ c.1 ∧ c.1 ≤ hi)

/-- The children between the places of `lo` and `hi`, with both ends. -/
def between {τ : Type} (lo hi : κ) (s : Alt κ τ) : List τ :=
  (s.children.drop (s.keys.countP fun k => decide (k < lo))).take
    (s.keys.countP (fun k => decide (k < hi)) + 1 - s.keys.countP fun k => decide (k < lo))

lemma countP_of_cut {key : κ} {A B : List κ} (hA : ∀ k ∈ A, k < key) (hB : ∀ k ∈ B, key ≤ k) :
    (A ++ B).countP (fun k => decide (k < key)) = A.length := by
  rw [List.countP_append, List.countP_eq_length.mpr fun k hk => by simpa using hA k hk,
    List.countP_eq_zero.mpr fun k hk => by simpa using hB k hk, Nat.add_zero]

/-- A node's children are those between the places of two keys and the others, and the cells of
the others are out of the range. -/
lemma Ordered.range_cut {h : ℕ} {t : Tree κ ν (h + 1)} (ht : Ordered (h + 1) t) {lo hi : κ}
    (hle : lo ≤ hi) : ∃ C D, (Inner.slots t).children = C ++ (between lo hi (Inner.slots t) ++ D) ∧
      C.length = (Inner.slots t).keys.countP (fun k => decide (k < lo)) ∧
      (∀ x ∈ C.flatMap (cells h), x.1 < lo) ∧ ∀ x ∈ D.flatMap (cells h), hi < x.1 := by
  obtain ⟨A, B, C, D, hkeys, hchildren, hlen, hA, hB, hC, -, -⟩ := ht.cut lo
  obtain ⟨A', B', C', D', hkeys', hchildren', hlen', hA', hB', -, hD', -⟩ := ht.cut hi
  have hlo : (Inner.slots t).keys.countP (fun k => decide (k < lo)) = A.length := by
    rw [hkeys, countP_of_cut hA hB]
  have hhi : (Inner.slots t).keys.countP (fun k => decide (k < hi)) = A'.length := by
    rw [hkeys', countP_of_cut hA' hB']
  have hmono : A.length ≤ A'.length := by
    rw [← hlo, ← hhi]
    exact List.countP_mono_left fun k _ hk => by
      simp only [decide_eq_true_eq] at hk ⊢
      exact lt_of_lt_of_le hk hle
  refine ⟨C, D', ?_, by rw [hlo, hlen], hC, hD'⟩
  rw [between, hlo, hhi]
  have hC' : (Inner.slots t).children.take A.length = C := by
    rw [hchildren, ← hlen, List.take_left]
  have hD : (Inner.slots t).children.drop (A'.length + 1) = D' := by
    rw [hchildren', ← hlen', ← List.drop_drop, List.drop_left]
    rfl
  have hrest : ((Inner.slots t).children.drop A.length).drop (A'.length + 1 - A.length) = D' := by
    rw [List.drop_drop, show A.length + (A'.length + 1 - A.length) = A'.length + 1 by omega, hD]
  calc (Inner.slots t).children
      = (Inner.slots t).children.take A.length ++ (Inner.slots t).children.drop A.length :=
        (List.take_append_drop _ _).symm
    _ = C ++ (((Inner.slots t).children.drop A.length).take (A'.length + 1 - A.length) ++ D') := by
        rw [hC', ← hrest, List.take_append_drop]

/-- **The cells in a range are below the children between the places of its ends.** -/
theorem Ordered.filter_cells {h : ℕ} {t : Tree κ ν (h + 1)} (ht : Ordered (h + 1) t) {lo hi : κ}
    (hle : lo ≤ hi) : (cells (h + 1) t).filter (inRange lo hi)
      = (between lo hi (Inner.slots t)).flatMap fun c => (cells h c).filter (inRange lo hi) := by
  obtain ⟨C, D, hchildren, -, hC, hD⟩ := ht.range_cut hle
  have hC' : (C.flatMap (cells h)).filter (inRange lo hi) = [] :=
    List.filter_eq_nil_iff.mpr fun x hx => by
      simpa [inRange] using fun h => absurd (hC x hx) (not_lt_of_ge h)
  have hD' : (D.flatMap (cells h)).filter (inRange lo hi) = [] :=
    List.filter_eq_nil_iff.mpr fun x hx => by
      simpa [inRange] using fun _ => hD x hx
  rw [cells, hchildren, List.flatMap_append, List.flatMap_append, List.filter_append,
    List.filter_append, hC', hD', List.nil_append, List.append_nil, List.filter_flatMap]

lemma NonEmpty.leafFor (key : κ) : ∀ {h : ℕ} {t : Tree κ ν h}, NonEmpty h t →
    (leafFor key h t).cells ≠ []
  | 0, _, ht => ht
  | h + 1, t, ht => @NonEmpty.leafFor key h _ (ht.2 _ ((Inner.slots t).childFor_mem key))

/-! ## Tight trees -/

/-- Each separator is the greatest key of the child on its left. -/
def Tight : (h : ℕ) → Tree κ ν h → Prop
  | 0, _ => True
  | h + 1, t => (∀ c ∈ (Inner.slots t).children, Tight h c) ∧
      ∀ p ∈ (Inner.slots t).pairs, lastKey (cells h p.1) = some p.2

/-- Separators that are greatest keys separate, if the cells are sorted. -/
lemma sep_of_tight {h : ℕ} : ∀ {s : Alt κ (Tree κ ν h)}, Sorted (s.children.flatMap (cells h)) →
    (∀ p ∈ s.pairs, lastKey (cells h p.1) = some p.2) →
    s.Sep (fun c k => ∀ x ∈ cells h c, x.1 ≤ k) fun k c => ∀ x ∈ cells h c, k < x.1 := by
  intro s
  induction s with
  | one c => intro _ _; trivial
  | cons c k rest ih =>
      intro hs hp
      rw [Alt.children_cons, List.flatMap_cons] at hs
      obtain ⟨hc, hrest, hlt⟩ := sorted_append.mp hs
      have hk : lastKey (cells h c) = some k := hp (c, k) List.mem_cons_self
      obtain ⟨v, hv⟩ := exists_mem_of_lastKey hk
      have hsep := ih hrest fun p hp' => hp p (List.mem_cons_of_mem _ hp')
      have habove : ∀ x ∈ rest.children.flatMap (cells h), k < x.1 := fun x hx => hlt _ hv x hx
      refine ⟨le_of_lastKey hc hk, fun d hd x hx => habove x (List.mem_flatMap.mpr ⟨d, hd, hx⟩), ?_,
        hsep⟩
      intro k' hk'
      obtain ⟨d, hd⟩ := rest.exists_pair hk'
      obtain ⟨v', hv'⟩ := exists_mem_of_lastKey (hp (d, k') (List.mem_cons_of_mem _ hd))
      exact habove _ (List.mem_flatMap.mpr ⟨d, rest.fst_mem_children hd, hv'⟩)

theorem ordered_of_tight : ∀ {h : ℕ} {t : Tree κ ν h}, Tight h t → Sorted (cells h t) →
    Ordered h t
  | 0, _, _, hs => hs
  | h + 1, t, ht, hs => by
      refine ⟨fun c hc => ordered_of_tight (ht.1 c hc) ?_, sep_of_tight hs ht.2⟩
      obtain ⟨C, D, hsplit⟩ := List.append_of_mem hc
      rw [cells, hsplit, List.flatMap_append, List.flatMap_cons] at hs
      exact (sorted_append.mp (sorted_append.mp hs).2.1).1

lemma Ordered.keys_sorted {h : ℕ} {t : Tree κ ν (h + 1)} (ht : Ordered (h + 1) t) :
    (Inner.slots t).keys.Pairwise (· < ·) := ht.2.keys_pairwise

/-! ## Node by node -/

/-- Every node has the property. -/
def Everywhere (p : ∀ h, Tree κ ν h → Prop) : (h : ℕ) → Tree κ ν h → Prop
  | 0, t => p 0 t
  | h + 1, t => p (h + 1) t ∧ ∀ c ∈ (Inner.slots t).children, Everywhere p h c

/-- The keys in a node. -/
def nodeKeys : (h : ℕ) → Tree κ ν h → List κ
  | 0, t => (Leaf.cells t).map Prod.fst
  | _ + 1, t => (Inner.slots t).keys

def KeysIncrease (h : ℕ) (t : Tree κ ν h) : Prop := (nodeKeys h t).Pairwise (· < ·)

/-- The `i`-th key of an inner node is the greatest key below the `i`-th child, and less than every
key below the next one. -/
def KeysSeparate : (h : ℕ) → Tree κ ν h → Prop
  | 0, _ => True
  | h + 1, t => ∀ i k, (Inner.slots t).keys[i]? = some k →
      ∃ c d, (Inner.slots t).children[i]? = some c ∧ (Inner.slots t).children[i + 1]? = some d ∧
        (k ∈ (cells h c).map Prod.fst ∧ ∀ x ∈ cells h c, x.1 ≤ k) ∧ ∀ x ∈ cells h d, k < x.1

/-- Each key is at least every key below the child on its left, and less than every key below the
child on its right. -/
def KeysBetween : (h : ℕ) → Tree κ ν h → Prop
  | 0, _ => True
  | h + 1, t => ∀ i k, (Inner.slots t).keys[i]? = some k →
      ∃ c d, (Inner.slots t).children[i]? = some c ∧ (Inner.slots t).children[i + 1]? = some d ∧
        (∀ x ∈ cells h c, x.1 ≤ k) ∧ ∀ x ∈ cells h d, k < x.1

theorem Ordered.keysIncrease : ∀ {h : ℕ} {t : Tree κ ν h}, Ordered h t →
    Everywhere KeysIncrease h t
  | 0, _, ht => List.pairwise_map.mpr ht
  | _ + 1, _, ht => ⟨ht.keys_sorted, fun c hc => (ht.1 c hc).keysIncrease⟩

lemma Ordered.nodeKeys_sorted : ∀ {h : ℕ} {t : Tree κ ν h}, Ordered h t →
    (nodeKeys h t).Pairwise (· < ·)
  | 0, _, ht => ht.keysIncrease
  | _ + 1, _, ht => ht.keys_sorted

/-- A key in a node is between two keys of cells below it. -/
lemma Ordered.nodeKey_between : ∀ {h : ℕ} {t : Tree κ ν h}, Ordered h t → NonEmpty h t →
    ∀ k ∈ nodeKeys h t, (∃ x ∈ cells h t, x.1 ≤ k) ∧ ∃ y ∈ cells h t, k ≤ y.1
  | 0, _, _, _, k, hk => by
      obtain ⟨x, hx, rfl⟩ := List.mem_map.mp hk
      exact ⟨⟨x, hx, le_refl _⟩, x, hx, le_refl _⟩
  | h + 1, t, ht, hne, k, hk => by
      obtain ⟨i, hi⟩ := List.getElem?_of_mem hk
      obtain ⟨c, d, hc, hd, hp, habove⟩ := ht.2.around i k hi
      have hcmem := List.mem_of_getElem? hc
      have hdmem := List.mem_of_getElem? hd
      obtain ⟨x, xs, hx⟩ := List.exists_cons_of_ne_nil (hne.2 c hcmem).cells_ne_nil
      obtain ⟨y, ys, hy⟩ := List.exists_cons_of_ne_nil (hne.2 d hdmem).cells_ne_nil
      have hxmem : x ∈ cells h c := hx ▸ List.mem_cons_self
      have hymem : y ∈ cells h d := hy ▸ List.mem_cons_self
      exact ⟨⟨x, List.mem_flatMap.mpr ⟨c, hcmem, hxmem⟩, ht.2.below_of_pair _ hp x hxmem⟩,
        y, List.mem_flatMap.mpr ⟨d, hdmem, hymem⟩, le_of_lt (habove y hymem)⟩

theorem keysSeparate_of_tight : ∀ {h : ℕ} {t : Tree κ ν h}, Tight h t → Sorted (cells h t) →
    Everywhere KeysSeparate h t
  | 0, _, _, _ => trivial
  | h + 1, t, ht, hs => by
      have hchild : ∀ c ∈ (Inner.slots t).children, Sorted (cells h c) := by
        intro c hc
        obtain ⟨C, D, hsplit⟩ := List.append_of_mem hc
        rw [cells, hsplit, List.flatMap_append, List.flatMap_cons] at hs
        exact (sorted_append.mp (sorted_append.mp hs).2.1).1
      refine ⟨?_, fun c hc => keysSeparate_of_tight (ht.1 c hc) (hchild c hc)⟩
      intro i k hk
      obtain ⟨c, d, hc, hd, hp, habove⟩ := (sep_of_tight hs ht.2).around i k hk
      have hlast : lastKey (cells h c) = some k := ht.2 (c, k) hp
      obtain ⟨v, hv⟩ := exists_mem_of_lastKey hlast
      have hmem := (Inner.slots t).fst_mem_children hp
      exact ⟨c, d, hc, hd, ⟨List.mem_map.mpr ⟨_, hv, rfl⟩,
        le_of_lastKey (hchild c hmem) hlast⟩, habove⟩

/-- **The order of a tree, node by node**: it is enough that each key separates the two children
beside it. -/
theorem ordered_iff : ∀ {h : ℕ} {t : Tree κ ν h},
    Ordered h t ↔ Everywhere KeysIncrease h t ∧ Everywhere KeysBetween h t
  | 0, _ => ⟨fun ht => ⟨List.pairwise_map.mpr ht, trivial⟩, fun ht => List.pairwise_map.mp ht.1⟩
  | h + 1, t => by
      constructor
      · intro ht
        refine ⟨ht.keysIncrease, ?_, fun c hc => (ordered_iff.mp (ht.1 c hc)).2⟩
        intro i k hk
        obtain ⟨c, d, hc, hd, hp, habove⟩ := ht.2.around i k hk
        exact ⟨c, d, hc, hd, ht.2.below_of_pair _ hp, habove⟩
      · rintro ⟨⟨hincrease, hbelow⟩, hbetween, hbelow'⟩
        refine ⟨fun c hc => ordered_iff.mpr ⟨hbelow c hc, hbelow' c hc⟩, ?_⟩
        exact Alt.sep_of_neighbours (fun _ _ _ hlt habove x hx => lt_trans hlt (habove x hx))
          hincrease
          hbetween

/-! ## Insertion -/

/-- Insertion below a node: the tree that takes its place, or two trees and the separator between
them, and the next free number.  A leaf splits when it has `L` cells, an inner node when it has
`I` keys; the right half gets the next number. -/
def insert (L I : ℕ) (c : κ × ν) (fresh : ℕ) : (h : ℕ) → Tree κ ν h → Alt κ (Tree κ ν h) × ℕ
  | 0, t =>
      let W := putCell c (Leaf.cells t)
      if (Leaf.cells t).length = L then
        match W[L / 2]? with
        | some p => (.cons (Leaf.mk (Leaf.pid t) (W.take (L / 2 + 1))) p.1
            (.one (Leaf.mk fresh (W.drop (L / 2 + 1)))), fresh + 1)
        | none => (.one (Leaf.mk (Leaf.pid t) W), fresh)
      else (.one (Leaf.mk (Leaf.pid t) W), fresh)
  | h + 1, t =>
      let r := insert L I c fresh h ((Inner.slots t).childFor c.1)
      let slots := (Inner.slots t).put c.1 r.1
      if r.1.keys ≠ [] ∧ (Inner.slots t).keys.length = I then
        match slots.cutAt (I / 2) with
        | some (left, k, right) =>
            (.cons (Inner.mk (Inner.pid t) left) k (.one (Inner.mk r.2 right)), r.2 + 1)
        | none => (.one (Inner.mk (Inner.pid t) slots), r.2)
      else (.one (Inner.mk (Inner.pid t) slots), r.2)

section Equations

variable {L I : ℕ} (c : κ × ν) (fresh : ℕ)

lemma insert_zero_of_ne {t : Tree κ ν 0} (hne : (Leaf.cells t).length ≠ L) :
    insert L I c fresh 0 t = (.one (Leaf.mk (Leaf.pid t) (putCell c (Leaf.cells t))), fresh) :=
  if_neg hne

lemma insert_zero_of_full {t : Tree κ ν 0} (hfull : (Leaf.cells t).length = L) :
    ∃ p, (putCell c (Leaf.cells t))[L / 2]? = some p ∧ insert L I c fresh 0 t
      = (.cons (Leaf.mk (Leaf.pid t) ((putCell c (Leaf.cells t)).take (L / 2 + 1))) p.1
          (.one (Leaf.mk fresh ((putCell c (Leaf.cells t)).drop (L / 2 + 1)))), fresh + 1) := by
  have hlen := length_putCell c (Leaf.cells t)
  obtain ⟨p, hp⟩ : ∃ p, (putCell c (Leaf.cells t))[L / 2]? = some p :=
    ⟨_, List.getElem?_eq_getElem (by omega)⟩
  refine ⟨p, hp, ?_⟩
  rw [insert]
  simp only [if_pos hfull, hp]

variable {h : ℕ} {t : Tree κ ν (h + 1)}

lemma insert_succ_of_not
    (hnot : ¬((insert L I c fresh h ((Inner.slots t).childFor c.1)).1.keys ≠ [] ∧
      (Inner.slots t).keys.length = I)) :
    insert L I c fresh (h + 1) t
      = (.one (Inner.mk (Inner.pid t) ((Inner.slots t).put c.1
            (insert L I c fresh h ((Inner.slots t).childFor c.1)).1)),
          (insert L I c fresh h ((Inner.slots t).childFor c.1)).2) := if_neg hnot

lemma insert_succ_of_full
    (hfull : (insert L I c fresh h ((Inner.slots t).childFor c.1)).1.keys ≠ [] ∧
      (Inner.slots t).keys.length = I) :
    ∃ left k right, (Inner.slots t).put c.1
        (insert L I c fresh h ((Inner.slots t).childFor c.1)).1 = left.append k right ∧
      left.keys.length = I / 2 ∧
      insert L I c fresh (h + 1) t
        = (.cons (Inner.mk (Inner.pid t) left) k
            (.one (Inner.mk (insert L I c fresh h ((Inner.slots t).childFor c.1)).2 right)),
          (insert L I c fresh h ((Inner.slots t).childFor c.1)).2 + 1) := by
  have hpos := List.length_pos_of_ne_nil hfull.1
  obtain ⟨left, k, right, hcut, heq, hleft⟩ := @Alt.cutAt_spec κ (Tree κ ν h) (I / 2)
    ((Inner.slots t).put c.1 (insert L I c fresh h ((Inner.slots t).childFor c.1)).1)
    (by rw [Alt.length_keys_put]; omega)
  refine ⟨left, k, right, heq, hleft, ?_⟩
  rw [insert]
  simp only [if_pos hfull, hcut]

/-- An insertion gives one tree or two. -/
lemma insert_keys_le : ∀ (h : ℕ) (t : Tree κ ν h), (insert L I c fresh h t).1.keys.length ≤ 1
  | 0, t => by
      by_cases hfull : (Leaf.cells t).length = L
      · obtain ⟨p, -, heq⟩ := @insert_zero_of_full _ _ _ L I c fresh _ hfull
        rw [heq]
        exact le_rfl
      · rw [insert_zero_of_ne c fresh hfull]
        exact Nat.zero_le _
  | h + 1, t => by
      by_cases hfull : (insert L I c fresh h ((Inner.slots t).childFor c.1)).1.keys ≠ [] ∧
        (Inner.slots t).keys.length = I
      · obtain ⟨left, k, right, -, -, heq⟩ := insert_succ_of_full c fresh hfull
        rw [heq]
        exact le_rfl
      · rw [insert_succ_of_not c fresh hfull]
        exact Nat.zero_le _

lemma insert_one_or_two (h : ℕ) (t : Tree κ ν h) :
    (∃ d next, insert L I c fresh h t = (.one d, next)) ∨
      ∃ l k r next, insert L I c fresh h t = (.cons l k (.one r), next) := by
  have hle := @insert_keys_le _ _ _ L I c fresh h t
  match hr : insert L I c fresh h t with
  | (.one d, next) => exact Or.inl ⟨d, next, rfl⟩
  | (.cons l k (.one r), next) => exact Or.inr ⟨l, k, r, next, rfl⟩
  | (.cons l k (.cons _ _ _), next) =>
      rw [hr] at hle
      exact absurd hle (by simp)

end Equations

/-- What insertion below a node achieves. -/
structure Inserted (h : ℕ) (t : Tree κ ν h) (c : κ × ν) (fresh : ℕ)
    (r : Alt κ (Tree κ ν h) × ℕ) : Prop where
  cells : r.1.children.flatMap (cells h) = putCell c (cells h t)
  tight : ∀ d ∈ r.1.children, Tight h d
  pairs : ∀ p ∈ r.1.pairs, lastKey (SearchTree.cells h p.1) = some p.2
  nonEmpty : ∀ d ∈ r.1.children, NonEmpty h d
  fresh_le : fresh ≤ r.2
  pids : (r.1.children.flatMap (pids h)).Perm (pids h t ++ List.range' fresh (r.2 - fresh))
  head : pid h r.1.head = pid h t

lemma insert_leaf {L I : ℕ} (hL : 2 ≤ L) (c : κ × ν) (fresh : ℕ) (t : Tree κ ν 0) :
    Inserted 0 t c fresh (insert L I c fresh 0 t) := by
  have hlen : (putCell c (Leaf.cells t)).length = (Leaf.cells t).length + 1 := length_putCell _ _
  by_cases hfull : (Leaf.cells t).length = L
  · obtain ⟨p, hp, heq⟩ := @insert_zero_of_full _ _ _ L I c fresh _ hfull
    rw [heq]
    refine ⟨?_, fun _ _ => trivial, ?_, ?_, Nat.le_succ _, ?_, rfl⟩
    · show _ ++ (_ ++ []) = _
      rw [List.append_nil]
      exact List.take_append_drop _ _
    · intro q hq
      rw [List.mem_singleton.mp hq]
      show lastKey ((putCell c (Leaf.cells t)).take (L / 2 + 1)) = some p.1
      rw [List.take_add_one, hp, Option.toList, lastKey_append_of_ne_nil _ (List.cons_ne_nil _ _)]
      rfl
    · intro d hd
      rcases List.mem_cons.mp hd with rfl | hd
      · show (putCell c (Leaf.cells t)).take (L / 2 + 1) ≠ []
        intro hnil
        have h := congrArg List.length hnil
        rw [List.length_take, List.length_nil] at h
        omega
      · rw [List.mem_singleton.mp hd]
        show (putCell c (Leaf.cells t)).drop (L / 2 + 1) ≠ []
        intro hnil
        have h := congrArg List.length hnil
        rw [List.length_drop, List.length_nil] at h
        omega
    · rw [Nat.add_sub_cancel_left]
      exact List.Perm.refl _
  · rw [insert_zero_of_ne c fresh hfull]
    refine ⟨?_, fun _ _ => trivial, fun p hp => absurd hp List.not_mem_nil, ?_, le_rfl, ?_, rfl⟩
    · exact List.flatMap_singleton _ _
    · intro d hd
      rw [List.mem_singleton.mp hd]
      exact putCell_ne_nil _ _
    · rw [Nat.sub_self]
      exact List.Perm.refl _

/-- The children of an inner node after an insertion below one of them. -/
structure Grown (h : ℕ) (t : Tree κ ν (h + 1)) (c : κ × ν) (fresh next : ℕ)
    (slots : Alt κ (Tree κ ν h)) : Prop where
  cells : slots.children.flatMap (cells h) = putCell c (cells (h + 1) t)
  tight : ∀ d ∈ slots.children, Tight h d
  pairs : ∀ p ∈ slots.pairs, lastKey (SearchTree.cells h p.1) = some p.2
  nonEmpty : ∀ d ∈ slots.children, NonEmpty h d
  pids : (slots.children.flatMap (pids h)).Perm
    ((Inner.slots t).children.flatMap (pids h) ++ List.range' fresh (next - fresh))

/-- Putting what an insertion below a child gives in the place of the child. -/
lemma put_grown {h : ℕ} {t : Tree κ ν (h + 1)} (ht : Tight (h + 1) t) (hn : NonEmpty (h + 1) t)
    (hs : Sorted (cells (h + 1) t)) {c : κ × ν} (hne : ∀ d ∈ cells (h + 1) t, d.1 ≠ c.1)
    {fresh : ℕ} {r : Alt κ (Tree κ ν h) × ℕ}
    (hr : Inserted h ((Inner.slots t).childFor c.1) c fresh r) :
    Grown h t c fresh r.2 ((Inner.slots t).put c.1 r.1) := by
  obtain ⟨A, B, C, D, -, hchildren, -, -, -, hC, hD, hput⟩ := (ordered_of_tight ht hs).cut c.1
  have hmem := (Inner.slots t).childFor_mem c.1
  have hcells : cells (h + 1) t = C.flatMap (cells h) ++
      (cells h ((Inner.slots t).childFor c.1) ++ D.flatMap (cells h)) := by
    rw [cells, hchildren, List.flatMap_append, List.flatMap_cons]
  have hsorted : Sorted (cells h ((Inner.slots t).childFor c.1)) := by
    rw [hcells] at hs
    exact (sorted_append.mp (sorted_append.mp hs).2.1).1
  have hne' : ∀ d ∈ cells h ((Inner.slots t).childFor c.1), d.1 ≠ c.1 := fun d hd =>
    hne d (List.mem_flatMap.mpr ⟨_, hmem, hd⟩)
  have hsplit : ∀ d ∈ ((Inner.slots t).put c.1 r.1).children,
      d ∈ r.1.children ∨ d ∈ (Inner.slots t).children := by
    intro d hd
    rw [(hput r.1).2] at hd
    rw [hchildren]
    simp only [List.mem_append, List.mem_cons] at hd ⊢
    tauto
  refine ⟨?_, ?_, ?_, ?_, ?_⟩
  · rw [(hput r.1).2, List.flatMap_append, List.flatMap_append, hr.cells, hcells,
      putCell_middle hC hD hsorted hne']
  · intro d hd
    exact (hsplit d hd).elim (hr.tight d) (ht.1 d)
  · refine (Inner.slots t).pairs_put (P := fun d k => lastKey (cells h d) = some k) c.1 ht.2
      hr.pairs ?_
    intro k hk hle
    rw [← lastKey_children (hr.nonEmpty _ r.1.last_mem), hr.cells]
    exact lastKey_putCell hsorted hne' hk hle
  · intro d hd
    exact (hsplit d hd).elim (hr.nonEmpty d) (hn.2 d)
  · -- the new numbers move behind those of the children on the right
    rw [(hput r.1).2, hchildren, List.flatMap_append, List.flatMap_append, List.flatMap_append,
      List.flatMap_cons, List.append_assoc, List.append_assoc]
    refine List.Perm.append_left _ ?_
    refine (hr.pids.append_right _).trans ?_
    rw [List.append_assoc]
    exact List.Perm.append_left _ List.perm_append_comm

/-- **Insertion below a node of a tight tree** is sorted insertion on the cells and keeps the tree
tight; the only new numbers are those counted from `fresh`. -/
theorem insert_spec {L I : ℕ} (hL : 2 ≤ L) (hI : 2 ≤ I) (c : κ × ν) (fresh : ℕ) : ∀ (h : ℕ)
    (t : Tree κ ν h), Tight h t → (h ≠ 0 → NonEmpty h t) → Sorted (cells h t) →
    (∀ d ∈ cells h t, d.1 ≠ c.1) → Inserted h t c fresh (insert L I c fresh h t) := by
  intro h
  induction h with
  | zero => intro t _ _ _ _; exact insert_leaf hL c fresh t
  | succ h ih =>
      intro t ht hn hs hne
      have hn' := hn (Nat.succ_ne_zero h)
      have hmem := (Inner.slots t).childFor_mem c.1
      obtain ⟨C, D, hsplit⟩ := List.append_of_mem hmem
      have hsc : Sorted (cells h ((Inner.slots t).childFor c.1)) := by
        rw [cells, hsplit, List.flatMap_append, List.flatMap_cons] at hs
        exact (sorted_append.mp (sorted_append.mp hs).2.1).1
      have hr := ih _ (ht.1 _ hmem) (fun _ => hn'.2 _ hmem) hsc fun d hd =>
        hne d (List.mem_flatMap.mpr ⟨_, hmem, hd⟩)
      have hg := put_grown ht hn' hs hne hr
      by_cases hfull : (insert L I c fresh h ((Inner.slots t).childFor c.1)).1.keys ≠ [] ∧
        (Inner.slots t).keys.length = I
      · obtain ⟨left, k, right, heq, hleft, hins⟩ := insert_succ_of_full c fresh hfull
        have hlen := Alt.length_keys_put c.1 (Inner.slots t)
          (insert L I c fresh h ((Inner.slots t).childFor c.1)).1
        have hpos := List.length_pos_of_ne_nil hfull.1
        rw [heq, Alt.keys_append, List.length_append, List.length_cons, hleft] at hlen
        have hl : 0 < left.keys.length := by omega
        have hrt : 0 < right.keys.length := by omega
        rw [heq] at hg
        have hcells := hg.cells
        have htight := hg.tight
        have hpairs := hg.pairs
        have hnonEmpty := hg.nonEmpty
        have hpids := hg.pids
        simp only [Alt.children_append, Alt.pairs_append, List.flatMap_append, List.mem_append,
          List.mem_cons] at hcells htight hpairs hnonEmpty hpids
        rw [hins]
        refine ⟨?_, ?_, ?_, ?_, le_trans hr.fresh_le (Nat.le_succ _), ?_, rfl⟩
        · show _ ++ (_ ++ []) = _
          rw [List.append_nil]
          exact hcells
        · intro d hd
          rcases List.mem_cons.mp hd with rfl | hd
          · exact ⟨fun d hd => htight d (Or.inl hd), fun p hp => hpairs p (Or.inl hp)⟩
          · rw [List.mem_singleton.mp hd]
            exact ⟨fun d hd => htight d (Or.inr hd), fun p hp => hpairs p (Or.inr (Or.inr hp))⟩
        · intro q hq
          rw [List.mem_singleton.mp hq]
          refine Eq.trans ?_ (hpairs (left.last, k) (Or.inr (Or.inl rfl)))
          exact lastKey_children (hnonEmpty _ (Or.inl left.last_mem))
        · intro d hd
          rcases List.mem_cons.mp hd with rfl | hd
          · exact ⟨List.ne_nil_of_length_pos hl, fun d hd => hnonEmpty d (Or.inl hd)⟩
          · rw [List.mem_singleton.mp hd]
            exact ⟨List.ne_nil_of_length_pos hrt, fun d hd => hnonEmpty d (Or.inr hd)⟩
        · -- the right half has the number after those of the insertion below
          have hle := hr.fresh_le
          set next := (insert L I c fresh h ((Inner.slots t).childFor c.1)).2
          have hrange : List.range' fresh (next + 1 - fresh)
              = List.range' fresh (next - fresh) ++ [next] := by
            rw [show next + 1 - fresh = next - fresh + 1 by omega, List.range'_concat,
              show fresh + 1 * (next - fresh) = next by omega]
          rw [hrange]
          show (Inner.pid t :: left.children.flatMap (pids h)
            ++ ((next :: right.children.flatMap (pids h)) ++ [])).Perm _
          rw [List.append_nil]
          refine List.Perm.cons _ (List.perm_middle.trans ((hpids.cons next).trans ?_))
          show (next :: ((Inner.slots t).children.flatMap (pids h) ++ _)).Perm
            ((Inner.slots t).children.flatMap (pids h) ++ (_ ++ [next]))
          rw [← List.append_assoc]
          exact (List.perm_append_singleton _ _).symm
      · rw [insert_succ_of_not c fresh hfull]
        refine ⟨?_, ?_, fun p hp => absurd hp List.not_mem_nil, ?_, hr.fresh_le, ?_, rfl⟩
        · exact (List.flatMap_singleton _ _).trans hg.cells
        · intro d hd
          rw [List.mem_singleton.mp hd]
          exact ⟨hg.tight, hg.pairs⟩
        · intro d hd
          rw [List.mem_singleton.mp hd]
          exact ⟨(Inner.slots t).put_keys_ne_nil _ _ hn'.1, hg.nonEmpty⟩
        · exact (List.Perm.of_eq (List.flatMap_singleton _ _)).trans (hg.pids.cons _)

end Order

end SearchTree
