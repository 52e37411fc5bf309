import Mathlib.Algebra.BigOperators.Group.Finset.Basic

/-!
# Odometers

A wheel counts its ticks from zero up to its capacity.  One tick more puts it back, not to zero but
to where it restarts, and gives a tick to the next wheel.

* `Wheel.turns`, `Wheel.shows`: how often a wheel was put back after so many ticks, and what it
  shows then.
* `ticks`, `reading`: a row of wheels after so many ticks of the first one.  One tick more is
  `ticks_succ` and `reading_succ`.
* `places`: all the ticks that the wheels up to one gave to the next, and one for each wheel.  The
  wheels that have moved decide it, which `levelSum` adds up from the first one on.
-/

/-- A wheel that counts up to `rest + span` and restarts at `rest`. -/
structure Wheel where
  rest : ℕ
  span : ℕ

namespace Wheel

variable (w : Wheel) {x y : ℕ}

def cap : ℕ := w.rest + w.span

/-- How often the wheel was put back. -/
def turns (x : ℕ) : ℕ := (x - w.rest) / (w.span + 1)

def shows (x : ℕ) : ℕ := x - w.turns x * (w.span + 1)

lemma turns_mul_le (x : ℕ) : w.turns x * (w.span + 1) ≤ x - w.rest := Nat.div_mul_le_self _ _

/-- What a wheel was ticked is what it shows, and a round for each time that it was put back. -/
lemma turns_add_shows (x : ℕ) : w.turns x * (w.span + 1) + w.shows x = x := by
  have hle := w.turns_mul_le x
  rw [shows]
  omega

lemma shows_le (x : ℕ) : w.shows x ≤ w.cap := by
  have hlt : x - w.rest < w.turns x * (w.span + 1) + (w.span + 1) :=
    Nat.lt_div_mul_add (Nat.succ_pos w.span)
  have hsum := w.turns_add_shows x
  rw [cap]
  omega

/-- How often a wheel was put back is told by what it would show. -/
lemma turns_eq {q : ℕ} (hlow : q ≠ 0 → q * (w.span + 1) + w.rest ≤ x)
    (hhigh : x ≤ q * (w.span + 1) + w.cap) : w.turns x = q := by
  rw [cap] at hhigh
  refine Nat.div_eq_of_lt_le ?_ ?_
  · rcases Nat.eq_zero_or_pos q with rfl | hq
    · rw [Nat.zero_mul]
      exact Nat.zero_le _
    · have := hlow (Nat.pos_iff_ne_zero.mp hq)
      omega
  · rw [Nat.succ_mul]
    omega

lemma rest_le_shows (h : w.turns x ≠ 0) : w.rest ≤ w.shows x := by
  have hle := w.turns_mul_le x
  have hpos : w.span + 1 ≤ w.turns x * (w.span + 1) := Nat.le_mul_of_pos_left _
    (Nat.pos_iff_ne_zero.mpr h)
  rw [shows]
  omega

/-- **One tick more.** -/
lemma turns_succ (x : ℕ) : w.turns (x + 1) = w.turns x + if w.shows x = w.cap then 1 else 0 := by
  have hsum := w.turns_add_shows x
  have hle := w.shows_le x
  have hrest := @rest_le_shows w x
  have hsucc := Nat.succ_mul (w.turns x) (w.span + 1)
  rw [cap] at hle
  split_ifs with h
  · rw [cap] at h
    refine w.turns_eq (fun _ => ?_) ?_
    · rw [hsucc]
      omega
    · rw [hsucc, cap]
      omega
  · rw [cap] at h
    show w.turns (x + 1) = w.turns x
    refine w.turns_eq (fun hne => ?_) ?_
    · have := hrest hne
      omega
    · rw [cap]
      omega

lemma shows_succ (x : ℕ) :
    w.shows (x + 1) = if w.shows x = w.cap then w.rest else w.shows x + 1 := by
  have hsum := w.turns_add_shows x
  have hsum' := w.turns_add_shows (x + 1)
  have hsucc := Nat.succ_mul (w.turns x) (w.span + 1)
  rw [turns_succ] at hsum'
  rw [cap] at hsum' ⊢
  split_ifs at hsum' ⊢
  · rw [hsucc] at hsum'
    omega
  · rw [Nat.add_zero] at hsum'
    omega

lemma turns_of_le (h : x ≤ w.cap) : w.turns x = 0 :=
  w.turns_eq (fun h => absurd rfl h) (by rwa [Nat.zero_mul, Nat.zero_add])

lemma shows_of_le (h : x ≤ w.cap) : w.shows x = x := by
  rw [shows, w.turns_of_le h, Nat.zero_mul, Nat.sub_zero]

lemma turns_mono (h : x ≤ y) : w.turns x ≤ w.turns y :=
  Nat.div_le_div_right (Nat.sub_le_sub_right h _)

lemma turns_lt (hw : 0 < w.cap) (hx : 0 < x) : w.turns x < x := by
  rw [cap] at hw
  rcases Nat.eq_zero_or_pos (w.turns x) with h | h
  · rwa [h]
  · have hle := w.turns_mul_le x
    rw [Nat.mul_succ] at hle
    have hspan := Nat.mul_le_mul_right w.span h
    omega

end Wheel

namespace Odometer

variable (W : ℕ → Wheel)

/-- The ticks that wheel `k` has been given. -/
def ticks : ℕ → ℕ → ℕ
  | 0, n => n
  | k + 1, n => (W k).turns (ticks k n)

/-- What wheel `k` shows. -/
def reading (k n : ℕ) : ℕ := (W k).shows (ticks W k n)

/-- The next tick reaches wheel `k`: all wheels before it are at their capacity. -/
def Carries (k n : ℕ) : Prop := ∀ j < k, reading W j n = (W j).cap

instance (k n : ℕ) : Decidable (Carries W k n) := inferInstanceAs (Decidable (∀ j < k, _))

lemma carries_succ {k n : ℕ} :
    Carries W (k + 1) n ↔ Carries W k n ∧ reading W k n = (W k).cap := by
  constructor
  · intro h
    exact ⟨fun j hj => h j (Nat.lt_succ_of_lt hj), h k (Nat.lt_succ_self k)⟩
  · rintro ⟨h, hk⟩ j hj
    rcases Nat.lt_succ_iff_lt_or_eq.mp hj with hj | rfl
    · exact h j hj
    · exact hk

/-- **One tick more of the first wheel.** -/
theorem ticks_succ (n : ℕ) : ∀ k,
    ticks W k (n + 1) = ticks W k n + if Carries W k n then 1 else 0
  | 0 => by
      have hfirst : Carries W 0 n := fun j hj => absurd hj (Nat.not_lt_zero j)
      rw [if_pos hfirst]
      rfl
  | k + 1 => by
      rw [ticks, ticks, ticks_succ n k]
      by_cases hk : Carries W k n
      · rw [if_pos hk, Wheel.turns_succ]
        refine congrArg (_ + ·) (if_congr ?_ rfl rfl)
        rw [carries_succ]
        exact (and_iff_right hk).symm
      · rw [if_neg hk, Nat.add_zero, if_neg fun h => hk ((carries_succ W).mp h).1, Nat.add_zero]

theorem reading_succ (k n : ℕ) : reading W k (n + 1) =
    if Carries W k n then (if reading W k n = (W k).cap then (W k).rest else reading W k n + 1)
    else reading W k n := by
  rw [reading, ticks_succ]
  split_ifs with hk hcap
  · rw [Wheel.shows_succ]
    exact if_pos hcap
  · rw [Wheel.shows_succ]
    exact if_neg hcap
  · rfl

lemma ticks_ne_zero {n : ℕ} : ∀ {k j : ℕ}, j ≤ k → ticks W k n ≠ 0 → ticks W j n ≠ 0
  | 0, j, hj, h => by
      rw [Nat.le_zero.mp hj]
      exact h
  | k + 1, j, hj, h => by
      rcases Nat.le_succ_iff.mp hj with hj | rfl
      · refine ticks_ne_zero hj fun hk => h ?_
        rw [ticks, hk]
        exact (W k).turns_of_le (Nat.zero_le _)
      · exact h

/-- A wheel that has been given a tick is not far behind the first one. -/
lemma ticks_add_le (hW : ∀ k, 0 < (W k).cap) {n : ℕ} : ∀ {k : ℕ}, ticks W k n ≠ 0 →
    ticks W k n + k ≤ n
  | 0, _ => Nat.le_refl n
  | k + 1, h => by
      have hk := ticks_ne_zero W (Nat.le_succ k) h
      have hlt := (W k).turns_lt (hW k) (Nat.pos_iff_ne_zero.mpr hk)
      have ih := ticks_add_le hW hk
      rw [ticks]
      omega

/-! ## What has been given on -/

open Finset in
/-- The ticks that the wheels up to `h` gave to the next, and one for each wheel. -/
def places (h n : ℕ) : ℕ := ∑ k ∈ range (h + 1), (ticks W (k + 1) n + 1)

lemma places_succ (h n : ℕ) : places W h (n + 1) = places W h n
    + ∑ k ∈ Finset.range (h + 1), if Carries W (k + 1) n then 1 else 0 := by
  rw [places, places, ← Finset.sum_add_distrib]
  refine Finset.sum_congr rfl ?_
  intro k _
  rw [ticks_succ]
  omega

/-- The sum over like wheels, the first of which has given on `m` ticks; so many wheels at most. -/
def levelSum (w : Wheel) : ℕ → ℕ → ℕ
  | 0, _ => 1
  | fuel + 1, m => if m = 0 then 1 else m + 1 + levelSum w fuel (w.turns m)

lemma levelSum_pos (w : Wheel) (fuel m : ℕ) : 0 < levelSum w fuel m := by
  cases fuel with
  | zero => exact Nat.one_pos
  | succ fuel =>
      rw [levelSum]
      split_ifs
      · exact Nat.one_pos
      · exact Nat.add_pos_left (Nat.succ_pos m) _

lemma levelSum_mono (w : Wheel) : ∀ {fuel fuel' m m' : ℕ}, fuel ≤ fuel' → m ≤ m' →
    levelSum w fuel m ≤ levelSum w fuel' m'
  | 0, fuel', m, m', _, _ => levelSum_pos w fuel' m'
  | fuel + 1, 0, _, _, hfuel, _ => absurd hfuel (Nat.not_succ_le_zero fuel)
  | fuel + 1, fuel' + 1, m, m', hfuel, hm => by
      have ih := levelSum_mono w (Nat.le_of_succ_le_succ hfuel) (w.turns_mono hm)
      rw [levelSum, levelSum]
      split_ifs
      · exact Nat.le_refl 1
      · omega
      · omega
      · omega

/-- **The sum over all wheels that have moved**, where those behind the first one are alike. -/
theorem levelSum_eq_places {w : Wheel} (hw : ∀ k, W (k + 1) = w) {h n fuel : ℕ} (hfuel : h ≤ fuel)
    (htop : ticks W (h + 1) n = 0) (hlow : h ≠ 0 → ticks W h n ≠ 0) :
    levelSum w fuel (ticks W 1 n) = places W h n := by
  have hsum : ∀ d k fuel, k + d = h → d ≤ fuel → levelSum w fuel (ticks W (k + 1) n)
      = ∑ j ∈ Finset.range (d + 1), (ticks W (k + j + 1) n + 1) := by
    intro d
    induction d with
    | zero =>
        rintro k fuel rfl -
        rw [Finset.sum_range_one, htop]
        cases fuel <;> rfl
    | succ d ih =>
        rintro k fuel rfl hd
        obtain ⟨fuel, rfl⟩ := Nat.exists_eq_add_of_le' hd
        have hne : ticks W (k + 1) n ≠ 0 :=
          ticks_ne_zero W (Nat.add_le_add_left (Nat.succ_pos d) k) (hlow (Nat.succ_ne_zero _))
        have hturns : w.turns (ticks W (k + 1) n) = ticks W (k + 1 + 1) n := by
          rw [← hw k]
          rfl
        have hrest := ih (k + 1) (fuel + d) (by omega) (Nat.le_add_left d fuel)
        rw [← Nat.add_assoc, levelSum, if_neg hne, hturns, hrest,
          Finset.sum_range_succ' _ (d + 1), Nat.add_zero, Nat.add_comm]
        have hshift : ∀ j, ticks W (k + 1 + j + 1) n = ticks W (k + (j + 1) + 1) n := fun j => by
          rw [Nat.add_right_comm k 1 j, Nat.add_assoc k j 1]
        simp only [hshift]
  have h₀ := hsum h 0 fuel (Nat.zero_add h) hfuel
  rw [Nat.zero_add] at h₀
  rw [h₀, places]
  refine Finset.sum_congr rfl ?_
  intro k _
  rw [Nat.zero_add]

end Odometer
