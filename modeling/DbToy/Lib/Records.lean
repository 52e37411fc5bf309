import DbToy.Lib.Bytes

/-!
# Records in blocks

Records of `n` bytes, one after the other in blocks of `B` bytes: a block takes `B / n` records
from its front on, and what is left at its end is not used.

* `start`: where a record begins.  Records do not overlap (`start_add_le`), and the place of the
  next one tells how many there are: the blocks (`blocks_start`) and the bytes of the records in the
  last one (`start_mod`).
* `Stored`: a file has the first records in their places.  Writing the front of a block keeps what
  is in the other blocks (`slice_start_patch`).
* `records`: the records that a file of any length has, which are those that end inside
  (`lt_whole_iff`).  While the blocks are written one after the other they are the first of the
  records, also when the writer stops inside a block (`Stored.patch`, `records_eq_take`).
-/

namespace Records

open Bytes

variable {α : Type} {B n : ℕ}

/-- Where record `i` begins. -/
def start (B n i : ℕ) : ℕ := i / (B / n) * B + i % (B / n) * n

/-- The number after a number that is counted in runs of `k`: the first of the next run, or the next
one of the same run. -/
lemma succ_div_mod {k : ℕ} (hk : 0 < k) (i : ℕ) :
    ((i + 1) / k = i / k + 1 ∧ (i + 1) % k = 0) ∨
      ((i + 1) / k = i / k ∧ (i + 1) % k = i % k + 1) := by
  have hlt := Nat.mod_lt i hk
  have hdivmod := Nat.div_add_mod' i k
  by_cases hlast : i % k + 1 = k
  · have hnext : i + 1 = (i / k + 1) * k := by
      rw [Nat.add_mul, Nat.one_mul]
      omega
    left
    rw [hnext, Nat.mul_div_cancel _ hk, Nat.mul_mod_left]
    exact ⟨rfl, rfl⟩
  · have hnext : i + 1 = i % k + 1 + i / k * k := by omega
    right
    rw [hnext, Nat.add_mul_div_right _ _ hk, Nat.add_mul_mod_self_right,
      Nat.div_eq_of_lt (by omega), Nat.mod_eq_of_lt (by omega), Nat.zero_add]
    exact ⟨rfl, rfl⟩

section Places

variable (hn : 0 < n) (hle : n ≤ B)

include hn hle

lemma perBlock_pos : 0 < B / n := Nat.div_pos hle hn

/-- A record ends inside its block. -/
lemma offset_add_le (i : ℕ) : i % (B / n) * n + n ≤ B := by
  have hlt : i % (B / n) < B / n := Nat.mod_lt i (perBlock_pos hn hle)
  calc i % (B / n) * n + n = (i % (B / n) + 1) * n := by rw [Nat.add_mul, Nat.one_mul]
    _ ≤ B / n * n := Nat.mul_le_mul_right n hlt
    _ ≤ B := Nat.div_mul_le_self B n

lemma start_mod (i : ℕ) : start B n i % B = i % (B / n) * n := by
  have hoff := offset_add_le hn hle i
  rw [start, Nat.add_comm, Nat.add_mul_mod_self_right, Nat.mod_eq_of_lt (by omega)]

/-- The blocks that a place before the end of a block takes. -/
lemma blocks_start (i : ℕ) : (start B n i + B - 1) / B
    = i / (B / n) + if i % (B / n) * n = 0 then 0 else 1 := by
  have hoff := offset_add_le hn hle i
  have hsum : start B n i + B - 1 = i % (B / n) * n + B - 1 + i / (B / n) * B := by
    rw [start]
    omega
  have hrest : (i % (B / n) * n + B - 1) / B = if i % (B / n) * n = 0 then 0 else 1 := by
    split_ifs with hzero
    · rw [hzero]
      exact Nat.div_eq_of_lt (by omega)
    · exact Nat.div_eq_of_lt_le (by omega) (by omega)
  rw [hsum, Nat.add_mul_div_right _ _ (by omega), hrest, Nat.add_comm]

/-- A record ends where the next one begins, or before. -/
lemma start_add_le_succ (i : ℕ) : start B n i + n ≤ start B n (i + 1) := by
  have hoff := offset_add_le hn hle i
  rcases succ_div_mod (perBlock_pos hn hle) i with ⟨hdiv, hmod⟩ | ⟨hdiv, hmod⟩
  · -- the next record is the first of the next block
    rw [start, start, hdiv, hmod, Nat.zero_mul, Nat.add_mul, Nat.one_mul]
    omega
  · rw [start, start, hdiv, hmod, Nat.add_mul, Nat.one_mul]
    omega

lemma start_mono {i j : ℕ} (hij : i ≤ j) : start B n i ≤ start B n j := by
  induction j with
  | zero => rw [Nat.le_zero.mp hij]
  | succ j ih =>
      rcases Nat.le_succ_iff.mp hij with hij | rfl
      · have hnext := start_add_le_succ hn hle j
        exact (ih hij).trans (by omega)
      · exact le_rfl

/-- **A record ends before every later one begins.** -/
theorem start_add_le {i j : ℕ} (hij : i < j) : start B n i + n ≤ start B n j :=
  (start_add_le_succ hn hle i).trans (start_mono hn hle hij)

/-- Two records of one block do not overlap. -/
lemma offset_disjoint {i j : ℕ} (hne : i ≠ j) (hblock : i / (B / n) = j / (B / n)) :
    j % (B / n) * n + n ≤ i % (B / n) * n ∨ i % (B / n) * n + n ≤ j % (B / n) * n := by
  rcases Nat.lt_or_gt_of_ne hne with hlt | hgt
  · have h := start_add_le hn hle hlt
    rw [start, start, hblock] at h
    omega
  · have h := start_add_le hn hle hgt
    rw [start, start, hblock] at h
    omega

end Places

/-- The file has the records below `m` in their places. -/
def Stored (B n : ℕ) (records : List (List α)) (m : ℕ) (bytes : List α) : Prop :=
  ∀ i record, records[i]? = some record → i < m → slice bytes (start B n i) n = record

/-- The front of a block is written: the records of the other blocks stay. -/
lemma slice_start_patch (hn : 0 < n) (hle : n ≤ B) (fill : α) {bytes src : List α} {k i : ℕ}
    (hsrc : src.length ≤ B) (hblock : i / (B / n) ≠ k) (hin : start B n i + n ≤ bytes.length) :
    slice (patch fill bytes (k * B) src) (start B n i) n = slice bytes (start B n i) n := by
  refine slice_patch_of_disjoint fill rfl ?_ hin
  have hoff := offset_add_le hn hle i
  rcases Nat.lt_or_gt_of_ne hblock with hlt | hgt
  · have hmul : (i / (B / n) + 1) * B ≤ k * B := Nat.mul_le_mul_right B hlt
    rw [Nat.add_mul, Nat.one_mul] at hmul
    rw [start]
    omega
  · have hmul : (k + 1) * B ≤ i / (B / n) * B := Nat.mul_le_mul_right B hgt
    rw [Nat.add_mul, Nat.one_mul] at hmul
    rw [start]
    omega

/-- The records of the block itself are those of the front. -/
lemma slice_start_patch_same (fill : α) {bytes src : List α} {i : ℕ}
    (hsrc : i % (B / n) * n + n ≤ src.length) :
    slice (patch fill bytes (i / (B / n) * B) src) (start B n i) n
      = slice src (i % (B / n) * n) n := by
  have hsame := slice_patch_same fill bytes (i / (B / n) * B) src
  rw [start, ← slice_slice _ _ _ _ _ hsrc, hsame]

/-! ## The records of a sequence -/

/-- How many records end inside a sequence of this length. -/
def whole (B n len : ℕ) : ℕ := len / B * (B / n) + len % B / n

/-- These records. -/
def records (B n : ℕ) (l : List α) : List (List α) :=
  (List.range (whole B n l.length)).map fun i => slice l (start B n i) n

lemma length_records (l : List α) : (records B n l).length = whole B n l.length := by
  rw [records, List.length_map, List.length_range]

@[simp] lemma records_nil : records B n ([] : List α) = [] := by
  rw [records, List.length_nil, whole, Nat.zero_div, Nat.zero_mul, Nat.zero_mod, Nat.zero_div]
  rfl

lemma getElem?_records {l : List α} {i : ℕ} (hi : i < whole B n l.length) :
    (records B n l)[i]? = some (slice l (start B n i) n) := by
  rw [records, List.getElem?_map, List.getElem?_range hi, Option.map_some]

/-- A sequence that has the first of these records, has them in their places. -/
lemma stored_of_records {rs : List (List α)} {l : List α} (h : records B n l <+: rs) :
    Stored B n rs (whole B n l.length) l := by
  obtain ⟨rest, rfl⟩ := h
  intro i record hrecord hi
  rw [List.getElem?_append_left (by rwa [length_records]), getElem?_records hi] at hrecord
  exact Option.some.inj hrecord

section

variable (hn : 0 < n) (hle : n ≤ B)

include hn hle

/-- **The records that are counted** are those that end inside. -/
theorem lt_whole_iff {i len : ℕ} : i < whole B n len ↔ start B n i + n ≤ len := by
  have hper := perBlock_pos hn hle
  have hoff := offset_add_le hn hle i
  have hi := Nat.div_add_mod' i (B / n)
  have hmod := Nat.mod_lt i hper
  have hlen := Nat.div_add_mod' len B
  have hrest := Nat.mod_lt len (show 0 < B by omega)
  have hblock : len % B / n ≤ B / n := Nat.div_le_div_right hrest.le
  have hstep : ∀ {a b : ℕ}, a < b → ∀ k, a * k + k ≤ b * k := by
    intro a b hab k
    calc a * k + k = (a + 1) * k := by rw [Nat.add_mul, Nat.one_mul]
      _ ≤ b * k := Nat.mul_le_mul_right k hab
  rw [whole, start]
  rcases lt_trichotomy (i / (B / n)) (len / B) with hlt | heq | hgt
  · -- the record is in a block that is there in full
    have hB := hstep hlt B
    have hrecords := hstep hlt (B / n)
    have hi' : i < len / B * (B / n) := by omega
    exact iff_of_true (Nat.lt_add_right _ hi') (by omega)
  · -- in the block that the sequence ends in
    have hdiv : i % (B / n) < len % B / n ↔ i % (B / n) * n + n ≤ len % B := by
      rw [← Nat.succ_le_iff, Nat.le_div_iff_mul_le hn, Nat.succ_mul]
    rw [← heq] at hlen ⊢
    omega
  · have hB := hstep hgt B
    have hrecords := hstep hgt (B / n)
    exact iff_of_false (by omega) (by omega)

lemma whole_start (i : ℕ) : whole B n (start B n i) = i := by
  refine eq_of_forall_lt_iff ?_
  intro j
  rw [lt_whole_iff hn hle]
  constructor
  · intro hj
    by_contra hge
    have hmono := start_mono hn hle (not_lt.mp hge)
    omega
  · exact start_add_le hn hle

lemma whole_mono {len len' : ℕ} (h : len ≤ len') : whole B n len ≤ whole B n len' := by
  refine le_of_forall_lt ?_
  intro i hi
  rw [lt_whole_iff hn hle] at hi ⊢
  exact hi.trans h

/-- The first record of a block. -/
lemma start_mul (k : ℕ) : start B n (k * (B / n)) = k * B := by
  rw [start, Nat.mul_div_cancel _ (perBlock_pos hn hle), Nat.mul_mod_left, Nat.zero_mul,
    Nat.add_zero]

/-- Blocks that are there in full. -/
lemma whole_mul (k : ℕ) : whole B n (k * B) = k * (B / n) := by
  rw [whole, Nat.mul_div_cancel _ (by omega), Nat.mul_mod_left, Nat.zero_div, Nat.add_zero]

/-- A sequence that ends with a record, or with a block, does so before the next record. -/
lemma le_start_whole {len : ℕ} (h : len % B % n = 0) : len ≤ start B n (whole B n len) := by
  have hrest : len % B / n * n = len % B := by
    have hdivmod := Nat.div_add_mod' (len % B) n
    omega
  have hblock := Nat.div_add_mod' len B
  have hwhole := Nat.div_le_div_right (c := n) (Nat.mod_lt len (show 0 < B by omega)).le
  rcases Nat.lt_or_eq_of_le hwhole with hlt | heq
  · have hper := perBlock_pos hn hle
    rw [start, whole, Nat.add_comm (len / B * (B / n)), Nat.add_mul_div_right _ _ hper,
      Nat.add_mul_mod_self_right, Nat.div_eq_of_lt hlt, Nat.mod_eq_of_lt hlt, Nat.zero_add, hrest]
    exact hblock.ge
  · -- all records of the last block are there
    have hlast : whole B n len = (len / B + 1) * (B / n) := by
      rw [whole, heq, Nat.add_mul, Nat.one_mul]
    rw [hlast, start_mul hn hle, Nat.add_mul, Nat.one_mul]
    have hlt := Nat.mod_lt len (show 0 < B by omega)
    omega

/-- A sequence that has records in their places, as far as it goes, is the beginning of them. -/
lemma records_eq_take {rs : List (List α)} {l : List α}
    (h : Stored B n rs (whole B n l.length) l) (hlen : l.length ≤ start B n rs.length) :
    records B n l = rs.take (whole B n l.length) := by
  have hwhole := whole_mono hn hle hlen
  rw [whole_start hn hle] at hwhole
  refine List.ext_getElem? ?_
  intro i
  by_cases hi : i < whole B n l.length
  · have hrs : rs[i]? = some rs[i] := List.getElem?_eq_getElem (hi.trans_le hwhole)
    rw [getElem?_records hi, List.getElem?_take_of_lt hi, hrs, h i _ hrs hi]
  · have hrecords : (records B n l).length ≤ i := (length_records l).trans_le (not_lt.mp hi)
    rw [List.getElem?_eq_none hrecords, List.getElem?_take_eq_none (not_lt.mp hi)]

/-- **The front of a block is written**, as far as the writer comes: the records that end inside the
sequence are in their places. -/
theorem Stored.patch {rs : List (List α)} {l block : List α} {k : ℕ} (fill : α) (w : ℕ)
    (h : Stored B n rs (whole B n l.length) l)
    (hbelow : ∀ i < rs.length, i / (B / n) < k → i < whole B n l.length) (hB : block.length ≤ B)
    (hblock : ∀ i record, rs[i]? = some record → i / (B / n) = k →
      slice block (i % (B / n) * n) n = record) :
    Stored B n rs (whole B n (patch fill l (k * B) (block.take w)).length)
      (patch fill l (k * B) (block.take w)) := by
  intro i record hrecord hi
  rw [lt_whole_iff hn hle, length_patch] at hi
  have hoff := offset_add_le hn hle i
  have hsrc : (block.take w).length ≤ B := (List.length_take_le' w block).trans hB
  rcases lt_trichotomy (i / (B / n)) k with hlt | rfl | hgt
  · -- the blocks before have all their records
    have hwhole := hbelow i (List.getElem?_eq_some_iff.mp hrecord).1 hlt
    rw [slice_start_patch hn hle fill hsrc hlt.ne ((lt_whole_iff hn hle).mp hwhole)]
    exact h i record hrecord hwhole
  · -- each element of the record is from the block, or was there
    have hnew := hblock i record hrecord rfl
    refine List.ext_getElem? ?_
    intro m
    rw [getElem?_slice]
    split_ifs with hm
    · rw [← hnew, getElem?_slice, if_pos hm, getElem?_patch, if_neg (by rw [start]; omega)]
      split_ifs with hin
      · rw [List.length_take] at hin
        rw [start] at hin ⊢
        rw [Nat.add_assoc, Nat.add_sub_cancel_left, List.getElem?_take_of_lt (by omega)]
      · have hold : start B n i + n ≤ l.length := by
          rw [start] at hi hin ⊢
          omega
        have hsame := congrArg (·[m]?) (h i record hrecord ((lt_whole_iff hn hle).mpr hold))
        simp only [← hnew, getElem?_slice, if_pos hm] at hsame
        exact hsame
    · rw [← hnew, getElem?_slice, if_neg hm]
  · -- the blocks behind are not reached
    have hnext := Nat.mul_le_mul_right B (Nat.succ_le_of_lt hgt)
    rw [Nat.succ_mul] at hnext
    have hin : start B n i + n ≤ l.length := by
      rw [start] at hi ⊢
      omega
    rw [slice_start_patch hn hle fill hsrc hgt.ne' hin]
    exact h i record hrecord ((lt_whole_iff hn hle).mpr hin)

end

end Records
