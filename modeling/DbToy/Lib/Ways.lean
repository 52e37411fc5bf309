import DbToy.Lib.Occupancy
import Mathlib.Data.List.TakeWhile

/-!
# The way of a key

The nodes that an insertion passes from the leaf of its key upwards, and those it changes: the
full ones, up to the first that is not.

* `wayUp`: the nodes from the leaf to the top, each with whether it is full.
* `fullRun`: how many of them are full without a gap, counted from the leaf; so many an insertion
  splits (`fullRun_eq_splits`), and it splits the top if they are all (`full_iff_fullRun`).
* `passed`: the nodes of that run, and the next one.
-/

namespace SearchTree

variable {κ ν : Type} [LinearOrder κ]

/-- The nodes on the way of the key, from the leaf upwards: the number of each, and whether it is
full. -/
def wayUp (L I : ℕ) (key : κ) : (h : ℕ) → Tree κ ν h → List (ℕ × Bool)
  | 0, t => [(Leaf.pid t, decide ((Leaf.cells t).length = L))]
  | h + 1, t => wayUp L I key h ((Inner.slots t).childFor key)
      ++ [(Inner.pid t, decide ((Inner.slots t).keys.length = I))]

/-- The full nodes from the leaf upwards without a gap. -/
def fullRun (L I : ℕ) (key : κ) (h : ℕ) (t : Tree κ ν h) : ℕ :=
  ((wayUp L I key h t).takeWhile Prod.snd).length

/-- The numbers of these nodes, and of the one above them. -/
def passed (L I : ℕ) (key : κ) (h : ℕ) (t : Tree κ ν h) : List ℕ :=
  ((wayUp L I key h t).take (fullRun L I key h t + 1)).map Prod.fst

variable {L I : ℕ} {key : κ}

lemma length_wayUp (h : ℕ) (t : Tree κ ν h) : (wayUp L I key h t).length = h + 1 := by
  induction h with
  | zero => rfl
  | succ h ih => simp [wayUp, ih]

/-- The way begins at the leaf of the key. -/
lemma wayUp_eq_cons (h : ℕ) (t : Tree κ ν h) :
    ∃ full rest, wayUp L I key h t = ((leafFor key h t).pid, full) :: rest := by
  induction h with
  | zero => exact ⟨_, [], rfl⟩
  | succ h ih =>
      obtain ⟨full, rest, hrest⟩ := ih ((Inner.slots t).childFor key)
      exact ⟨full, rest ++ [_], by rw [wayUp, hrest, List.cons_append]; rfl⟩

lemma full_iff_wayUp (h : ℕ) (t : Tree κ ν h) :
    Full L I key h t ↔ ∀ n ∈ wayUp L I key h t, n.2 = true := by
  induction h with
  | zero => simp [Full, wayUp]
  | succ h ih =>
      rw [Full, ih, wayUp, List.forall_mem_append, List.forall_mem_singleton, decide_eq_true_iff]

lemma length_takeWhile_iff {α : Type} {p : α → Bool} {l : List α} :
    (l.takeWhile p).length = l.length ↔ ∀ a ∈ l, p a = true := by
  rw [← List.takeWhile_eq_self_iff]
  exact ⟨(List.takeWhile_prefix p).eq_of_length, congrArg List.length⟩

/-- **The way is full if the run goes up to the top.** -/
theorem full_iff_fullRun (h : ℕ) (t : Tree κ ν h) :
    Full L I key h t ↔ fullRun L I key h t = h + 1 := by
  rw [full_iff_wayUp, fullRun, ← @length_wayUp κ ν _ L I key h t, length_takeWhile_iff]

lemma fullRun_le (h : ℕ) (t : Tree κ ν h) : fullRun L I key h t ≤ h + 1 :=
  (List.takeWhile_prefix Prod.snd).length_le.trans (length_wayUp h t).le

/-- The run at a node, from that below it. -/
lemma fullRun_succ (h : ℕ) (t : Tree κ ν (h + 1)) : fullRun L I key (h + 1) t
    = fullRun L I key h ((Inner.slots t).childFor key)
      + if Full L I key (h + 1) t then 1 else 0 := by
  by_cases hfull : Full L I key h ((Inner.slots t).childFor key)
  · have hall := (full_iff_wayUp h _).mp hfull
    rw [fullRun, wayUp, List.takeWhile_append_of_pos hall, List.length_append, length_wayUp,
      (full_iff_fullRun h _).mp hfull]
    by_cases htop : (Inner.slots t).keys.length = I
    · rw [if_pos ⟨hfull, htop⟩]
      simp [htop]
    · rw [if_neg fun h => htop h.2]
      simp [htop]
  · have hlt := lt_of_le_of_ne (fullRun_le h _) fun h => hfull ((full_iff_fullRun _ _).mpr h)
    rw [if_neg fun h => hfull h.1, fullRun, wayUp, List.takeWhile_append, if_neg, Nat.add_zero,
      fullRun]
    rw [length_wayUp]
    exact ne_of_lt hlt

/-- **An insertion splits the full nodes from the leaf upwards without a gap.** -/
theorem fullRun_eq_splits (h : ℕ) (t : Tree κ ν h) :
    fullRun L I key h t = splits L I key h t := by
  induction h with
  | zero =>
      by_cases hfull : (Leaf.cells t).length = L <;> simp [fullRun, wayUp, splits, Full, hfull]
  | succ h ih => rw [fullRun_succ, splits, ih]

/-! ## The nodes passed -/

lemma passed_zero (t : Tree κ ν 0) : passed L I key 0 t = [Leaf.pid t] := by
  rw [passed, List.take_of_length_le (by rw [length_wayUp]; omega)]
  rfl

/-- A node is passed exactly if everything below it is full. -/
lemma passed_succ (h : ℕ) (t : Tree κ ν (h + 1)) : passed L I key (h + 1) t
    = passed L I key h ((Inner.slots t).childFor key)
      ++ if Full L I key h ((Inner.slots t).childFor key) then [Inner.pid t] else [] := by
  have hlen := @length_wayUp κ ν _ L I key h ((Inner.slots t).childFor key)
  have hle := @fullRun_le κ ν _ L I key h ((Inner.slots t).childFor key)
  rw [passed, passed, fullRun_succ, wayUp]
  by_cases hfull : Full L I key h ((Inner.slots t).childFor key)
  · have hrun := (full_iff_fullRun h _).mp hfull
    rw [if_pos hfull, hrun, List.take_of_length_le, List.take_of_length_le, List.map_append]
    · rfl
    · omega
    · rw [List.length_append, List.length_singleton]
      omega
  · have hlt := lt_of_le_of_ne hle fun h => hfull ((full_iff_fullRun _ _).mpr h)
    rw [if_neg hfull, if_neg fun h => hfull h.1, Nat.add_zero, List.append_nil,
      List.take_append_of_le_length (by omega)]

/-- If the leaf is not full, only the leaf is passed. -/
lemma passed_of_fullRun_eq_zero {h : ℕ} {t : Tree κ ν h} (hrun : fullRun L I key h t = 0) :
    passed L I key h t = [(leafFor key h t).pid] := by
  obtain ⟨full, rest, hway⟩ := @wayUp_eq_cons κ ν _ L I key h t
  rw [passed, hrun, hway]
  rfl

/-- The top is passed if its way is full. -/
lemma pid_mem_passed {h : ℕ} {t : Tree κ ν h} (hfull : Full L I key h t) :
    pid h t ∈ passed L I key h t := by
  cases h with
  | zero =>
      rw [passed_zero]
      exact List.mem_singleton_self _
  | succ h =>
      rw [passed_succ, if_pos hfull.1]
      exact List.mem_append_right _ (List.mem_singleton_self _)

end SearchTree
