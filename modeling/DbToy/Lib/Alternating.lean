import Mathlib.Data.List.Basic
import Mathlib.Order.Lattice

/-!
# Alternating sequences

`Alt κ τ` is `(c0, k0, c1, ..., kn-1, cn)`: what an inner node of a search tree holds, with one
child more than keys by construction.

* `childFor`, `put`: the child where a key belongs, and its replacement by a whole sequence.  What
  they do to keys and children as lists is one cut, `exists_cut`.
* `cutAt`: take one key out and the sequence apart (`cutAt_spec`).
* `pairs`: each child with the key behind it.
-/

/-- Children separated by keys. -/
inductive Alt (κ τ : Type) : Type
  | one (c : τ)
  | cons (c : τ) (k : κ) (rest : Alt κ τ)

namespace Alt

variable {κ τ : Type}

def keys : Alt κ τ → List κ
  | one _ => []
  | cons _ k rest => k :: rest.keys

def children : Alt κ τ → List τ
  | one c => [c]
  | cons c _ rest => c :: rest.children

/-- Every child but the last one, with the key behind it. -/
def pairs : Alt κ τ → List (τ × κ)
  | one _ => []
  | cons c k rest => (c, k) :: rest.pairs

def head : Alt κ τ → τ
  | one c => c
  | cons c _ _ => c

def last : Alt κ τ → τ
  | one c => c
  | cons _ _ rest => rest.last

def append : Alt κ τ → κ → Alt κ τ → Alt κ τ
  | one c, k, s => cons c k s
  | cons c k' rest, k, s => cons c k' (rest.append k s)

@[simp] lemma keys_one (c : τ) : (one c : Alt κ τ).keys = [] := rfl

@[simp] lemma children_one (c : τ) : (one c : Alt κ τ).children = [c] := rfl

@[simp] lemma keys_cons (c : τ) (k : κ) (s : Alt κ τ) : (cons c k s).keys = k :: s.keys := rfl

@[simp] lemma children_cons (c : τ) (k : κ) (s : Alt κ τ) :
    (cons c k s).children = c :: s.children := rfl

lemma length_children : ∀ s : Alt κ τ, s.children.length = s.keys.length + 1
  | one _ => rfl
  | cons _ _ rest => by
      rw [children_cons, keys_cons, List.length_cons, List.length_cons, length_children rest]

lemma last_mem : ∀ s : Alt κ τ, s.last ∈ s.children
  | one c => List.mem_singleton_self c
  | cons _ _ rest => List.mem_cons_of_mem _ (last_mem rest)

lemma head_mem : ∀ s : Alt κ τ, s.head ∈ s.children
  | one c => List.mem_singleton_self c
  | cons _ _ _ => List.mem_cons_self

/-- Every child replaced. -/
def map (f : τ → τ) : Alt κ τ → Alt κ τ
  | one c => one (f c)
  | cons c k rest => cons (f c) k (rest.map f)

lemma keys_map (f : τ → τ) : ∀ s : Alt κ τ, (s.map f).keys = s.keys
  | one _ => rfl
  | cons _ k rest => congrArg (List.cons k) (keys_map f rest)

lemma children_map (f : τ → τ) : ∀ s : Alt κ τ, (s.map f).children = s.children.map f
  | one _ => rfl
  | cons c _ rest => congrArg (List.cons (f c)) (children_map f rest)

section Append

variable (k : κ) (t : Alt κ τ)

lemma keys_append : ∀ s : Alt κ τ, (s.append k t).keys = s.keys ++ k :: t.keys
  | one _ => rfl
  | cons c k' rest => by rw [append, keys_cons, keys_append rest, keys_cons, List.cons_append]

lemma children_append : ∀ s : Alt κ τ, (s.append k t).children = s.children ++ t.children
  | one _ => rfl
  | cons c k' rest => by
      rw [append, children_cons, children_append rest, children_cons, List.cons_append]

lemma pairs_append : ∀ s : Alt κ τ, (s.append k t).pairs = s.pairs ++ (s.last, k) :: t.pairs
  | one _ => rfl
  | cons c k' rest => by rw [append, pairs, pairs_append rest, pairs, List.cons_append, last]

end Append

/-- Every key has a child before it. -/
lemma exists_pair : ∀ (s : Alt κ τ) {k : κ}, k ∈ s.keys → ∃ c, (c, k) ∈ s.pairs
  | cons c k' rest, k, h => by
      rcases List.mem_cons.mp h with rfl | h
      · exact ⟨c, List.mem_cons_self⟩
      · obtain ⟨d, hd⟩ := exists_pair rest h
        exact ⟨d, List.mem_cons_of_mem _ hd⟩

lemma fst_mem_children : ∀ (s : Alt κ τ) {p : τ × κ}, p ∈ s.pairs → p.1 ∈ s.children
  | cons c k rest, p, h => by
      rcases List.mem_cons.mp h with rfl | h
      · exact List.mem_cons_self
      · exact List.mem_cons_of_mem _ (fst_mem_children rest h)

/-- The last child behind the others. -/
lemma children_eq_last : ∀ s : Alt κ τ, ∃ front, s.children = front ++ [s.last]
  | one _ => ⟨[], rfl⟩
  | cons c _ rest => by
      obtain ⟨front, h⟩ := children_eq_last rest
      exact ⟨c :: front, by rw [children_cons, h, last, List.cons_append]⟩

/-- A sequence without keys is its one child. -/
lemma children_of_keys_nil : ∀ {s : Alt κ τ}, s.keys = [] → s = one s.head
  | one _, _ => rfl

/-- Keys and children make up the sequence. -/
lemma eq_of_lists : ∀ {s t : Alt κ τ}, s.keys = t.keys → s.children = t.children → s = t
  | one c, one d, _, h => by rw [(List.cons.inj h).1]
  | cons c k s, cons d l t, hk, hc => by
      rw [(List.cons.inj hk).1, (List.cons.inj hc).1,
        eq_of_lists (List.cons.inj hk).2 (List.cons.inj hc).2]

/-! ## The place of a key -/

section Place

variable [LinearOrder κ] (key : κ)

/-- The child where `key` belongs: the first one whose key is not below it. -/
def childFor : Alt κ τ → τ
  | one c => c
  | cons c k rest => if key ≤ k then c else rest.childFor

/-- The sequence with that child replaced by the sequence `r`. -/
def put : Alt κ τ → Alt κ τ → Alt κ τ
  | one _, r => r
  | cons c k rest, r => if key ≤ k then r.append k rest else cons c k (put rest r)

/-- The keys are in order, each child is `below` the key behind it, and each key has the later
children `above` it. -/
def Sep (below : τ → κ → Prop) (above : κ → τ → Prop) : Alt κ τ → Prop
  | one _ => True
  | cons c k rest => below c k ∧ (∀ d ∈ rest.children, above k d) ∧ (∀ k' ∈ rest.keys, k < k') ∧
      rest.Sep below above

lemma Sep.keys_pairwise {below : τ → κ → Prop} {above : κ → τ → Prop} : ∀ {s : Alt κ τ},
    s.Sep below above → s.keys.Pairwise (· < ·)
  | one _, _ => List.Pairwise.nil
  | cons _ _ _, ⟨_, _, hlt, hrest⟩ => List.pairwise_cons.mpr ⟨hlt, hrest.keys_pairwise⟩

/-- Around each key: the child with the key behind it, and the next child. -/
lemma Sep.around {below : τ → κ → Prop} {above : κ → τ → Prop} : ∀ {s : Alt κ τ},
    s.Sep below above → ∀ i k, s.keys[i]? = some k →
      ∃ c d, s.children[i]? = some c ∧ s.children[i + 1]? = some d ∧ (c, k) ∈ s.pairs ∧ above k d
  | cons c k rest, h, 0, k', hk => by
      obtain ⟨-, habove, -, -⟩ := h
      cases hk
      refine ⟨c, rest.head, rfl, ?_, List.mem_cons_self, habove _ rest.head_mem⟩
      cases rest <;> rfl
  | cons c k rest, h, i + 1, k', hk => by
      obtain ⟨c', d, hc, hd, hp, ha⟩ := h.2.2.2.around i k' hk
      exact ⟨c', d, hc, hd, List.mem_cons_of_mem _ hp, ha⟩

lemma Sep.below_of_pair {below : τ → κ → Prop} {above : κ → τ → Prop} : ∀ {s : Alt κ τ},
    s.Sep below above → ∀ p ∈ s.pairs, below p.1 p.2
  | cons c k rest, h, p, hp => by
      rcases List.mem_cons.mp hp with rfl | hp
      · exact h.1
      · exact h.2.2.2.below_of_pair p hp

/-- Every child but the first one has a key in front of it. -/
lemma Sep.above_of_mem {below : τ → κ → Prop} {above : κ → τ → Prop} : ∀ {s : Alt κ τ},
    s.Sep below above → ∀ d ∈ s.children, d = s.head ∨ ∃ k ∈ s.keys, above k d
  | one c, _, d, hd => Or.inl (List.mem_singleton.mp hd)
  | cons c k rest, h, d, hd => by
      rcases List.mem_cons.mp hd with rfl | hd
      · exact Or.inl rfl
      · exact Or.inr ⟨k, List.mem_cons_self, h.2.1 d hd⟩

/-- It is enough that each key separates the two children beside it. -/
lemma sep_of_neighbours {below : τ → κ → Prop} {above : κ → τ → Prop}
    (hmono : ∀ k k' d, k < k' → above k' d → above k d) : ∀ {s : Alt κ τ},
    s.keys.Pairwise (· < ·) → (∀ i k, s.keys[i]? = some k → ∃ c d, s.children[i]? = some c ∧
      s.children[i + 1]? = some d ∧ below c k ∧ above k d) → s.Sep below above
  | one _, _, _ => trivial
  | cons c k rest, hkeys, h => by
      obtain ⟨hlt, hrest⟩ := List.pairwise_cons.mp hkeys
      obtain ⟨c', d, hc, hd, hbelow, habove⟩ := h 0 k rfl
      cases hc
      have hsep : rest.Sep below above :=
        sep_of_neighbours hmono hrest fun i k' hk' => h (i + 1) k' hk'
      have hhead : rest.head = d := by cases rest <;> exact Option.some.inj hd
      refine ⟨hbelow, ?_, hlt, hsep⟩
      intro e he
      rcases hsep.above_of_mem e he with rfl | ⟨k', hk', habove'⟩
      · exact hhead.symm ▸ habove
      · exact hmono k k' e (hlt k' hk') habove'

/-- Of two children there is a key above the one and below the other. -/
lemma Sep.children_pairwise {below : τ → κ → Prop} {above : κ → τ → Prop} : ∀ {s : Alt κ τ},
    s.Sep below above → s.children.Pairwise fun c d => ∃ k, below c k ∧ above k d
  | one _, _ => List.pairwise_singleton _ _
  | cons _ k _, ⟨hbelow, habove, _, hrest⟩ =>
      List.pairwise_cons.mpr ⟨fun d hd => ⟨k, hbelow, habove d hd⟩, hrest.children_pairwise⟩

/-- **The cut of a key**: keys and children before and behind its place. -/
theorem exists_cut : ∀ s : Alt κ τ, ∃ A B C D, s.keys = A ++ B ∧
    s.children = C ++ s.childFor key :: D ∧ C.length = A.length ∧ (∀ k ∈ A, k < key) ∧
    (∀ r, (s.put key r).keys = A ++ (r.keys ++ B) ∧
      (s.put key r).children = C ++ (r.children ++ D)) ∧
    ∀ below above, s.Sep below above → (∀ k ∈ B, key ≤ k) ∧ (∀ d ∈ C, ∃ k < key, below d k) ∧
      ∀ d ∈ D, ∃ k, key ≤ k ∧ above k d := by
  intro s
  induction s with
  | one c =>
      refine ⟨[], [], [], [], rfl, rfl, rfl, by simp, ?_, fun _ _ _ => by simp⟩
      intro r
      simp [put]
  | cons c k rest ih =>
      by_cases hk : key ≤ k
      · refine ⟨[], k :: rest.keys, [], rest.children, rfl, ?_, rfl, by simp, ?_, ?_⟩
        · rw [childFor, if_pos hk]; rfl
        · intro r
          rw [put, if_pos hk, keys_append, children_append]
          exact ⟨rfl, rfl⟩
        · rintro below above ⟨-, habove, hlt, -⟩
          refine ⟨fun k' hk' => ?_, by simp, fun d hd => ⟨k, hk, habove d hd⟩⟩
          rcases List.mem_cons.mp hk' with rfl | hk'
          · exact hk
          · exact le_trans hk (le_of_lt (hlt k' hk'))
      · obtain ⟨A, B, C, D, hkeys, hchildren, hlen, hA, hput, hsep⟩ := ih
        refine ⟨k :: A, B, c :: C, D, ?_, ?_, ?_, ?_, ?_, ?_⟩
        · rw [keys_cons, hkeys]; rfl
        · rw [children_cons, hchildren, childFor, if_neg hk]; rfl
        · rw [List.length_cons, List.length_cons, hlen]
        · intro k' hk'
          rcases List.mem_cons.mp hk' with rfl | hk'
          · exact lt_of_not_ge hk
          · exact hA k' hk'
        · intro r
          rw [put, if_neg hk, keys_cons, children_cons, (hput r).1, (hput r).2]
          exact ⟨rfl, rfl⟩
        · rintro below above ⟨hbelow, -, -, hrest⟩
          obtain ⟨hB, hC, hD⟩ := hsep below above hrest
          refine ⟨hB, fun d hd => ?_, hD⟩
          rcases List.mem_cons.mp hd with rfl | hd
          · exact ⟨k, lt_of_not_ge hk, hbelow⟩
          · exact hC d hd

/-- The keys separate as before, if the new child is on the same side of them. -/
lemma Sep.put_one {below : τ → κ → Prop} {above : κ → τ → Prop} {r : τ} : ∀ {s : Alt κ τ},
    s.Sep below above → (∀ k, below (s.childFor key) k → key ≤ k → below r k) →
    (∀ k, above k (s.childFor key) → k < key → above k r) →
    (s.put key (one r)).Sep below above := by
  intro s
  induction s with
  | one c => intro _ _ _; trivial
  | cons c k rest ih =>
      rintro ⟨hbelow, habove, hlt, hrest⟩ hr hr'
      by_cases hk : key ≤ k
      · rw [childFor, if_pos hk] at hr
        rw [put, if_pos hk]
        exact ⟨hr k hbelow hk, habove, hlt, hrest⟩
      · rw [childFor, if_neg hk] at hr hr'
        obtain ⟨A, B, C, D, hkeys, hchildren, -, -, hput, -⟩ := exists_cut key rest
        obtain ⟨hputkeys, hputchildren⟩ := hput (one r)
        have hmem : ∀ d, d ∈ C ++ D → d ∈ rest.children := by
          intro d hd
          rw [hchildren]
          rcases List.mem_append.mp hd with hd | hd
          · exact List.mem_append_left _ hd
          · exact List.mem_append_right _ (List.mem_cons_of_mem _ hd)
        rw [put, if_neg hk]
        refine ⟨hbelow, ?_, fun k' hk' => hlt k' ?_, ih hrest hr hr'⟩
        · intro d hd
          rw [hputchildren, List.mem_append, children_one, List.singleton_append,
            List.mem_cons] at hd
          rcases hd with hd | rfl | hd
          · exact habove d (hmem d (List.mem_append_left _ hd))
          · refine hr' k (habove _ ?_) (lt_of_not_ge hk)
            rw [hchildren]
            exact List.mem_append_right _ List.mem_cons_self
          · exact habove d (hmem d (List.mem_append_right _ hd))
        · rw [hkeys]
          rwa [hputkeys, keys_one, List.nil_append] at hk'

lemma childFor_mem (s : Alt κ τ) : s.childFor key ∈ s.children := by
  obtain ⟨A, B, C, D, -, h, -⟩ := exists_cut key s
  rw [h]
  exact List.mem_append_right _ List.mem_cons_self

lemma put_keys_ne_nil (s : Alt κ τ) (r : Alt κ τ) (h : s.keys ≠ []) : (s.put key r).keys ≠ [] := by
  obtain ⟨A, B, C, D, hkeys, -, -, -, hput, -⟩ := exists_cut key s
  rw [(hput r).1]
  intro hnil
  rw [List.append_eq_nil_iff, List.append_eq_nil_iff] at hnil
  exact h (by rw [hkeys, hnil.1, hnil.2.2, List.append_nil])

lemma length_keys_put (s r : Alt κ τ) :
    (s.put key r).keys.length = s.keys.length + r.keys.length := by
  obtain ⟨A, B, _, _, hkeys, -, -, -, hput, -⟩ := exists_cut key s
  rw [(hput r).1, hkeys, List.length_append, List.length_append, List.length_append]
  omega

/-- A relation between each child and the key behind it survives the replacement of a child, if
the last of the new children has it with each key that the old child had it with. -/
lemma pairs_put {P : τ → κ → Prop} {s r : Alt κ τ} (hs : ∀ p ∈ s.pairs, P p.1 p.2)
    (hr : ∀ p ∈ r.pairs, P p.1 p.2)
    (hlast : ∀ k, P (s.childFor key) k → key ≤ k → P r.last k) :
    ∀ p ∈ (s.put key r).pairs, P p.1 p.2 := by
  induction s with
  | one c => exact hr
  | cons c k rest ih =>
      by_cases hk : key ≤ k
      · have hc : P c k := hs (c, k) List.mem_cons_self
        rw [childFor, if_pos hk] at hlast
        rw [put, if_pos hk, pairs_append]
        intro p hp
        rcases List.mem_append.mp hp with hp | hp
        · exact hr p hp
        · rcases List.mem_cons.mp hp with rfl | hp
          · exact hlast k hc hk
          · exact hs p (List.mem_cons_of_mem _ hp)
      · rw [childFor, if_neg hk] at hlast
        rw [put, if_neg hk, pairs]
        intro p hp
        rcases List.mem_cons.mp hp with rfl | hp
        · exact hs _ List.mem_cons_self
        · exact ih (fun q hq => hs q (List.mem_cons_of_mem _ hq)) hlast p hp

end Place

/-! ## Taking a sequence apart -/

/-- The parts before and behind key number `n`, with the key. -/
def cutAt : ℕ → Alt κ τ → Option (Alt κ τ × κ × Alt κ τ)
  | _, one _ => none
  | 0, cons c k rest => some (one c, k, rest)
  | n + 1, cons c k rest => (cutAt n rest).map fun p => (cons c k p.1, p.2.1, p.2.2)

theorem cutAt_spec : ∀ {n : ℕ} {s : Alt κ τ}, n < s.keys.length →
    ∃ l k r, s.cutAt n = some (l, k, r) ∧ s = l.append k r ∧ l.keys.length = n
  | 0, cons c k rest, _ => ⟨one c, k, rest, rfl, rfl, rfl⟩
  | n + 1, cons c k rest, h => by
      obtain ⟨l, k', r, e, hs, hl⟩ := @cutAt_spec n rest (Nat.lt_of_succ_lt_succ h)
      refine ⟨cons c k l, k', r, by rw [cutAt, e]; rfl, by rw [append, ← hs], ?_⟩
      rw [keys_cons, List.length_cons, hl]

/-- Where a key is against the cut decides on which side the two children around it are. -/
lemma mem_left_of_append [LinearOrder κ] {left right : Alt κ τ} {k₀ k : κ} {A B : List κ}
    {C D : List τ} {l r : τ} (hkeys : (left.append k₀ right).keys = A ++ k :: B)
    (hchildren : (left.append k₀ right).children = C ++ l :: r :: D) (hlen : C.length = A.length)
    (hsorted : (left.append k₀ right).keys.Pairwise (· < ·)) :
    (k₀ ≤ k → ∀ d ∈ left.children, d ∈ C ∨ d = l) ∧ (k₀ < k → ∀ d ∈ left.children, d ∈ C) := by
  have hl := left.length_children
  rw [keys_append] at hkeys hsorted
  rw [children_append] at hchildren
  have hget : (left.keys ++ k₀ :: right.keys)[A.length]? = some k := by
    rw [hkeys, List.getElem?_append_right (Nat.le_refl _), Nat.sub_self]
    rfl
  have hle : k₀ ≤ k → left.keys.length ≤ A.length := by
    intro hk
    by_contra hlt
    rw [List.getElem?_append_left (Nat.lt_of_not_le hlt)] at hget
    have hlt' := (List.pairwise_append.mp hsorted).2.2 k (List.mem_of_getElem? hget) k₀
      List.mem_cons_self
    exact absurd hk (not_le_of_gt hlt')
  have hcut : ∀ n, left.children.length ≤ n → ∀ d ∈ left.children,
      d ∈ (C ++ l :: r :: D).take n := by
    intro n hn d hd
    rw [← hchildren, List.take_append, List.mem_append]
    exact Or.inl (by rwa [List.take_of_length_le hn])
  refine ⟨?_, ?_⟩
  · intro hk d hd
    have hmem := hcut (C.length + 1) (by have := hle hk; omega) d hd
    rw [List.take_length_add_append, List.mem_append] at hmem
    exact hmem.imp_right List.mem_singleton.mp
  · intro hk d hd
    have hne : left.keys.length ≠ A.length := by
      intro heq
      rw [← heq, List.getElem?_append_right (Nat.le_refl _), Nat.sub_self] at hget
      exact absurd hk (by rw [Option.some.inj hget]; exact lt_irrefl _)
    have hmem := hcut C.length (by have := hle (le_of_lt hk); omega) d hd
    rwa [List.take_left] at hmem

/-! ## Replacing every child -/

section Map

variable (f : τ → τ)

lemma append_map (k : κ) (r : Alt κ τ) : ∀ s : Alt κ τ,
    (s.append k r).map f = (s.map f).append k (r.map f)
  | one _ => rfl
  | cons c k' rest => congrArg (cons (f c) k') (append_map k r rest)

lemma childFor_map [LinearOrder κ] (key : κ) : ∀ s : Alt κ τ,
    (s.map f).childFor key = f (s.childFor key)
  | one _ => rfl
  | cons c k rest => by
      rw [map, childFor, childFor, childFor_map key rest]
      split_ifs <;> rfl

lemma put_map [LinearOrder κ] (key : κ) (r : Alt κ τ) : ∀ s : Alt κ τ,
    (s.put key r).map f = (s.map f).put key (r.map f)
  | one _ => rfl
  | cons c k rest => by
      rw [map, put, put]
      split_ifs
      · exact append_map f k rest r
      · exact congrArg (cons (f c) k) (put_map key r rest)

lemma cutAt_map : ∀ (n : ℕ) (s : Alt κ τ),
    (s.map f).cutAt n = (s.cutAt n).map fun p => (p.1.map f, p.2.1, p.2.2.map f)
  | 0, one _ => rfl
  | _ + 1, one _ => rfl
  | 0, cons _ _ _ => rfl
  | n + 1, cons c k rest => by
      rw [map, cutAt, cutAt, cutAt_map n rest]
      cases cutAt n rest <;> rfl

end Map

end Alt
