import DbToy.Lib.SearchTree

/-!
# Occupancy of B+ trees

How full the nodes of a tree are, and what that says about insertion.

* `Full`: every node on the way of a key is full, so that inserting the key splits them all, up to
  the top (`insert_keys_ne_nil`).
* `splits`: the number of nodes that an insertion adds below a node (`insert_snd`).
* `Fits`: no node on the way that an insertion adds to is fuller than it may be.
* `Filled`: every node is at least half full.  Insertion keeps it (`insert_filled`).
-/

namespace SearchTree

variable {κ ν : Type} [LinearOrder κ] {L I : ℕ}

/-- Every node on the way of the key is full. -/
def Full (L I : ℕ) (key : κ) : (h : ℕ) → Tree κ ν h → Prop
  | 0, t => (Leaf.cells t).length = L
  | h + 1, t => Full L I key h ((Inner.slots t).childFor key) ∧ (Inner.slots t).keys.length = I

instance Full.decidable (key : κ) : ∀ (h : ℕ) (t : Tree κ ν h), Decidable (Full L I key h t)
  | 0, t => inferInstanceAs (Decidable ((Leaf.cells t).length = L))
  | h + 1, t =>
      have := Full.decidable key h ((Inner.slots t).childFor key)
      inferInstanceAs (Decidable (_ ∧ (Inner.slots t).keys.length = I))

/-- The nodes that an insertion splits: those whose way down is full. -/
def splits (L I : ℕ) (key : κ) : (h : ℕ) → Tree κ ν h → ℕ
  | 0, t => if Full L I key 0 t then 1 else 0
  | h + 1, t => splits L I key h ((Inner.slots t).childFor key)
      + if Full L I key (h + 1) t then 1 else 0

/-- The leaf where the key belongs has at most `L` cells, and so has every inner node that a split
posts a key to at most `I` keys. -/
def Fits (L I : ℕ) (key : κ) : (h : ℕ) → Tree κ ν h → Prop
  | 0, t => (Leaf.cells t).length ≤ L
  | h + 1, t => Fits L I key h ((Inner.slots t).childFor key) ∧
      (Full L I key h ((Inner.slots t).childFor key) → (Inner.slots t).keys.length ≤ I)

instance Fits.decidable (key : κ) : ∀ (h : ℕ) (t : Tree κ ν h), Decidable (Fits L I key h t)
  | 0, t => inferInstanceAs (Decidable ((Leaf.cells t).length ≤ L))
  | h + 1, t =>
      have := Fits.decidable key h ((Inner.slots t).childFor key)
      inferInstanceAs (Decidable (_ ∧ (_ → _)))

/-- **An insertion splits a node exactly if its whole way below the node is full.** -/
theorem insert_keys_ne_nil (c : κ × ν) (fresh : ℕ) : ∀ (h : ℕ) (t : Tree κ ν h),
    (insert L I c fresh h t).1.keys ≠ [] ↔ Full L I c.1 h t
  | 0, t => by
      by_cases hfull : (Leaf.cells t).length = L
      · obtain ⟨p, -, heq⟩ := @insert_zero_of_full _ _ _ L I c fresh _ hfull
        rw [heq]
        exact iff_of_true (List.cons_ne_nil _ _) hfull
      · rw [insert_zero_of_ne c fresh hfull]
        exact iff_of_false (fun h => h rfl) hfull
  | h + 1, t => by
      rw [Full, ← insert_keys_ne_nil c fresh h ((Inner.slots t).childFor c.1)]
      by_cases hfull : (insert L I c fresh h ((Inner.slots t).childFor c.1)).1.keys ≠ [] ∧
        (Inner.slots t).keys.length = I
      · obtain ⟨left, k, right, -, -, heq⟩ := insert_succ_of_full c fresh hfull
        rw [heq]
        exact iff_of_true (List.cons_ne_nil _ _) hfull
      · rw [insert_succ_of_not c fresh hfull]
        exact iff_of_false (fun h => h rfl) hfull

/-- An insertion takes as many numbers as it splits nodes. -/
theorem insert_snd (c : κ × ν) (fresh : ℕ) : ∀ (h : ℕ) (t : Tree κ ν h),
    (insert L I c fresh h t).2 = fresh + splits L I c.1 h t
  | 0, t => by
      rw [splits]
      by_cases hfull : Full L I c.1 0 t
      · obtain ⟨p, -, heq⟩ := @insert_zero_of_full _ _ _ L I c fresh t hfull
        rw [heq, if_pos hfull]
      · rw [insert_zero_of_ne c fresh hfull, if_neg hfull]
        rfl
  | h + 1, t => by
      have ih := insert_snd c fresh h ((Inner.slots t).childFor c.1)
      have hkeys := @insert_keys_ne_nil _ _ _ L I c fresh h ((Inner.slots t).childFor c.1)
      rw [splits]
      by_cases hfull : Full L I c.1 (h + 1) t
      · obtain ⟨left, k, right, -, -, heq⟩ :=
          insert_succ_of_full c fresh ⟨hkeys.mpr hfull.1, hfull.2⟩
        rw [heq, if_pos hfull, ← Nat.add_assoc, ← ih]
      · rw [insert_succ_of_not c fresh fun hn => hfull ⟨hkeys.mp hn.1, hn.2⟩, if_neg hfull, ih]
        rfl

/-- The right half of a node that splits is new. -/
lemma le_pid_right {c : κ × ν} {fresh next : ℕ} {h : ℕ} {t l r : Tree κ ν h} {k : κ}
    (hins : insert L I c fresh h t = (.cons l k (.one r), next)) : fresh ≤ pid h r := by
  cases h with
  | zero =>
      by_cases hfull : (Leaf.cells t).length = L
      · obtain ⟨p, -, heq⟩ := @insert_zero_of_full _ _ _ L I c fresh t hfull
        cases hins.symm.trans heq
        exact le_refl fresh
      · rw [insert_zero_of_ne c fresh hfull] at hins
        exact nomatch hins
  | succ h =>
      by_cases hfull : (insert L I c fresh h ((Inner.slots t).childFor c.1)).1.keys ≠ [] ∧
        (Inner.slots t).keys.length = I
      · obtain ⟨left, k₀, right, -, -, heq⟩ := insert_succ_of_full c fresh hfull
        cases hins.symm.trans heq
        show fresh ≤ (insert L I c fresh h ((Inner.slots t).childFor c.1)).2
        rw [insert_snd]
        exact Nat.le_add_right _ _
      · rw [insert_succ_of_not c fresh hfull] at hins
        exact nomatch hins

/-! ## At least half full -/

/-- Every leaf has between `L / 2` and `L` cells, every inner node between `I / 2` and `I` keys. -/
def Filled (L I : ℕ) : (h : ℕ) → Tree κ ν h → Prop
  | 0, t => L / 2 ≤ (Leaf.cells t).length ∧ (Leaf.cells t).length ≤ L
  | h + 1, t => I / 2 ≤ (Inner.slots t).keys.length ∧ (Inner.slots t).keys.length ≤ I ∧
      ∀ c ∈ (Inner.slots t).children, Filled L I h c

/-- The root may be less full than that. -/
def RootFilled (L I : ℕ) : (h : ℕ) → Tree κ ν h → Prop
  | 0, t => (Leaf.cells t).length ≤ L
  | h + 1, t => (Inner.slots t).keys ≠ [] ∧ (Inner.slots t).keys.length ≤ I ∧
      ∀ c ∈ (Inner.slots t).children, Filled L I h c

lemma Filled.fits {key : κ} : ∀ {h : ℕ} {t : Tree κ ν h}, Filled L I h t → Fits L I key h t
  | 0, _, ht => ht.2
  | h + 1, t, ht => ⟨@Filled.fits key h _ (ht.2.2 _ ((Inner.slots t).childFor_mem key)),
      fun _ => ht.2.1⟩

lemma RootFilled.fits {key : κ} : ∀ {h : ℕ} {t : Tree κ ν h}, RootFilled L I h t →
    Fits L I key h t
  | 0, _, ht => ht
  | _ + 1, t, ht => ⟨(ht.2.2 _ ((Inner.slots t).childFor_mem key)).fits, fun _ => ht.2.1⟩

omit [LinearOrder κ] in
lemma length_flatMap_le {h : ℕ} : ∀ {l : List (Tree κ ν h)},
    (∀ c ∈ l, (cells h c).length ≤ L * (pids h c).length) →
      (l.flatMap (cells h)).length ≤ L * (l.flatMap (pids h)).length
  | [], _ => Nat.zero_le _
  | c :: l, hl => by
      have hc := hl c List.mem_cons_self
      have hrest := length_flatMap_le fun d hd => hl d (List.mem_cons_of_mem _ hd)
      rw [List.flatMap_cons, List.flatMap_cons, List.length_append, List.length_append, Nat.mul_add]
      omega

omit [LinearOrder κ] in
lemma length_children_le {h : ℕ} {t : Tree κ ν (h + 1)}
    (ht : ∀ c ∈ (Inner.slots t).children, (cells h c).length ≤ L * (pids h c).length) :
    (cells (h + 1) t).length ≤ L * (pids (h + 1) t).length := by
  rw [cells, pids, List.length_cons, Nat.mul_add, Nat.mul_one]
  exact Nat.le_add_right_of_le (length_flatMap_le ht)

omit [LinearOrder κ] in
lemma Filled.length_cells_le : ∀ {h : ℕ} {t : Tree κ ν h}, Filled L I h t →
    (cells h t).length ≤ L * (pids h t).length
  | 0, _, ht => ht.2.trans (Nat.le_of_eq (Nat.mul_one L).symm)
  | _ + 1, _, ht => length_children_le fun c hc => (ht.2.2 c hc).length_cells_le

omit [LinearOrder κ] in
/-- **A tree has at most `L` cells for each node.** -/
theorem RootFilled.length_cells_le : ∀ {h : ℕ} {t : Tree κ ν h}, RootFilled L I h t →
    (cells h t).length ≤ L * (pids h t).length
  | 0, _, ht => ht.trans (Nat.le_of_eq (Nat.mul_one L).symm)
  | _ + 1, _, ht => length_children_le fun c hc => (ht.2.2 c hc).length_cells_le

/-- The children of a node after an insertion below one of them. -/
lemma put_filled (key : κ) {h : ℕ} {s r : Alt κ (Tree κ ν h)}
    (hs : ∀ c ∈ s.children, Filled L I h c) (hr : ∀ c ∈ r.children, Filled L I h c) :
    ∀ c ∈ (s.put key r).children, Filled L I h c := by
  obtain ⟨_, _, C, D, _, hchildren, _, _, hput, _⟩ := s.exists_cut key
  intro c hc
  rw [(hput r).2] at hc
  rw [hchildren] at hs
  rcases List.mem_append.mp hc with hc | hc
  · exact hs c (List.mem_append_left _ hc)
  · rcases List.mem_append.mp hc with hc | hc
    · exact hr c hc
    · exact hs c (List.mem_append_right _ (List.mem_cons_of_mem _ hc))

lemma insert_zero_filled (hL : 0 < L) (c : κ × ν) (fresh : ℕ) {t : Tree κ ν 0}
    (hle : (Leaf.cells t).length ≤ L) :
    (Full L I c.1 0 t → ∀ d ∈ (insert L I c fresh 0 t).1.children, Filled L I 0 d) ∧
      (¬Full L I c.1 0 t → ∃ d : Tree κ ν 0, (insert L I c fresh 0 t).1 = .one d ∧
        (Leaf.cells t).length ≤ (Leaf.cells d).length ∧ (Leaf.cells d).length ≤ L) := by
  have hlen := length_putCell c (Leaf.cells t)
  refine ⟨?_, ?_⟩
  · intro hfull
    have hcells : (Leaf.cells t).length = L := hfull
    obtain ⟨p, -, heq⟩ := @insert_zero_of_full _ _ _ L I c fresh _ hcells
    rw [heq]
    intro d hd
    rcases List.mem_cons.mp hd with rfl | hd
    · show L / 2 ≤ ((putCell c (Leaf.cells t)).take (L / 2 + 1)).length ∧ _ ≤ L
      rw [List.length_take, hlen, hcells]
      omega
    · rw [List.mem_singleton.mp hd]
      show L / 2 ≤ ((putCell c (Leaf.cells t)).drop (L / 2 + 1)).length ∧ _ ≤ L
      rw [List.length_drop, hlen, hcells]
      omega
  · intro hfull
    have hcells : (Leaf.cells t).length ≠ L := hfull
    rw [insert_zero_of_ne c fresh hcells]
    refine ⟨_, rfl, ?_, ?_⟩
    · show _ ≤ (putCell c (Leaf.cells t)).length
      omega
    · show (putCell c (Leaf.cells t)).length ≤ L
      omega

lemma insert_succ_filled (c : κ × ν) (fresh : ℕ) {h : ℕ} {t : Tree κ ν (h + 1)}
    (hle : (Inner.slots t).keys.length ≤ I) (hs : ∀ d ∈ (Inner.slots t).children, Filled L I h d)
    (hr : ∀ d ∈ (insert L I c fresh h ((Inner.slots t).childFor c.1)).1.children,
      Filled L I h d) :
    (Full L I c.1 (h + 1) t →
        ∀ d ∈ (insert L I c fresh (h + 1) t).1.children, Filled L I (h + 1) d) ∧
      (¬Full L I c.1 (h + 1) t → ∃ d : Tree κ ν (h + 1), (insert L I c fresh (h + 1) t).1 = .one d ∧
        (Inner.slots t).keys.length ≤ (Inner.slots d).keys.length ∧
        (Inner.slots d).keys.length ≤ I ∧ ∀ e ∈ (Inner.slots d).children, Filled L I h e) := by
  have hput := put_filled c.1 hs hr
  have hlen := Alt.length_keys_put c.1 (Inner.slots t)
    (insert L I c fresh h ((Inner.slots t).childFor c.1)).1
  have hkeys := @insert_keys_ne_nil _ _ _ L I c fresh h ((Inner.slots t).childFor c.1)
  have hone := @insert_keys_le _ _ _ L I c fresh h ((Inner.slots t).childFor c.1)
  refine ⟨?_, ?_⟩
  · intro hfull
    have hne := hkeys.mpr hfull.1
    have hpos := List.length_pos_of_ne_nil hne
    have hI := hfull.2
    obtain ⟨left, k, right, hcut, hleft, heq⟩ := insert_succ_of_full c fresh ⟨hne, hI⟩
    rw [hcut, Alt.keys_append, List.length_append, List.length_cons, hleft] at hlen
    rw [hcut, Alt.children_append] at hput
    rw [heq]
    intro d hd
    rcases List.mem_cons.mp hd with rfl | hd
    · refine ⟨le_of_eq hleft.symm, ?_, fun e he => hput e (List.mem_append_left _ he)⟩
      show left.keys.length ≤ I
      omega
    · rw [List.mem_singleton.mp hd]
      refine ⟨?_, ?_, fun e he => hput e (List.mem_append_right _ he)⟩
      · show I / 2 ≤ right.keys.length
        omega
      · show right.keys.length ≤ I
        omega
  · intro hfull
    rw [insert_succ_of_not c fresh fun hn => hfull ⟨hkeys.mp hn.1, hn.2⟩]
    refine ⟨_, rfl, ?_, ?_, hput⟩
    · show _ ≤ ((Inner.slots t).put c.1 _).keys.length
      omega
    · show ((Inner.slots t).put c.1 _).keys.length ≤ I
      rw [hlen]
      by_cases hI : (Inner.slots t).keys.length = I
      · have hnil : (insert L I c fresh h ((Inner.slots t).childFor c.1)).1.keys = [] :=
          not_not.mp fun hne => hfull ⟨hkeys.mp hne, hI⟩
        rw [hnil, List.length_nil]
        exact hle
      · omega

/-- **Insertion leaves every node at least half full**, as far as it was before. -/
theorem insert_filled (hL : 0 < L) (c : κ × ν) (fresh : ℕ) : ∀ (h : ℕ) (t : Tree κ ν h),
    Filled L I h t → ∀ d ∈ (insert L I c fresh h t).1.children, Filled L I h d
  | 0, t, ht => by
      obtain ⟨hsplit, hone⟩ := @insert_zero_filled κ ν _ L I hL c fresh t ht.2
      by_cases hfull : Full L I c.1 0 t
      · exact hsplit hfull
      · obtain ⟨d, heq, hge, hle⟩ := hone hfull
        rw [heq]
        intro e he
        rw [List.mem_singleton.mp he]
        exact ⟨le_trans ht.1 hge, hle⟩
  | h + 1, t, ht => by
      obtain ⟨hsplit, hone⟩ := insert_succ_filled c fresh ht.2.1 ht.2.2
        (insert_filled hL c fresh h _ (ht.2.2 _ ((Inner.slots t).childFor_mem c.1)))
      by_cases hfull : Full L I c.1 (h + 1) t
      · exact hsplit hfull
      · obtain ⟨d, heq, hge, hle, hchildren⟩ := hone hfull
        rw [heq]
        intro e he
        rw [List.mem_singleton.mp he]
        exact ⟨le_trans ht.1 hge, hle, hchildren⟩

end SearchTree
