import Mathlib.Data.List.Basic
import Mathlib.Tactic.Ring

/-!
# Slices and patches of a sequence

A block of memory and a file are both read and written in runs of consecutive elements.  This
module has the two operations and how they compose.

* `slice l off len`: the run of at most `len` elements that starts at `off`.
* `patch fill l off new`: `l` with `new` written at `off`.  A patch that starts past the end fills
  the gap with `fill`, as a file does with zeros.
* `encodeLE`, `decodeLE`: a number as its little-endian bytes, and back.

What a client needs is the pair `slice_patch_same` and `slice_patch_of_disjoint`: a run reads back
as it was written, and a patch leaves every run it does not meet alone.
-/

namespace Bytes

variable {α : Type}

/-! ## Slices -/

/-- The run of `len` elements from `off`, shorter where the sequence ends before. -/
def slice (l : List α) (off len : ℕ) : List α := (l.drop off).take len

lemma length_slice (l : List α) (off len : ℕ) :
    (slice l off len).length = min len (l.length - off) := by
  simp [slice]

lemma length_slice_of_le {l : List α} {off len : ℕ} (h : off + len ≤ l.length) :
    (slice l off len).length = len := by
  rw [length_slice]; omega

lemma slice_of_length_le {l : List α} {off : ℕ} (h : l.length ≤ off) (len : ℕ) :
    slice l off len = [] := by
  simp [slice, List.drop_of_length_le h]

lemma getElem?_slice (l : List α) (off len i : ℕ) :
    (slice l off len)[i]? = if i < len then l[off + i]? else none := by
  simp only [slice, List.getElem?_take, List.getElem?_drop]

lemma slice_slice (l : List α) (off len i n : ℕ) (h : i + n ≤ len) :
    slice (slice l off len) i n = slice l (off + i) n := by
  refine List.ext_getElem? ?_
  intro j
  simp only [getElem?_slice]
  split_ifs with h1 h2
  · rw [Nat.add_assoc]
  · omega
  · rfl

/-- A run splits where it is cut. -/
lemma slice_add (l : List α) (off m n : ℕ) :
    slice l off (m + n) = slice l off m ++ slice l (off + m) n := by
  simp only [slice, List.take_add, List.drop_drop]

@[simp] lemma slice_zero_length (l : List α) : slice l 0 l.length = l := by
  simp [slice]

/-! ## Patches -/

/-- `l` with `new` written at `off`; a gap before `off` is filled. -/
def patch (fill : α) (l : List α) (off : ℕ) (new : List α) : List α :=
  l.take off ++ List.replicate (off - l.length) fill ++ new ++ l.drop (off + new.length)

lemma length_patch (fill : α) (l : List α) (off : ℕ) (new : List α) :
    (patch fill l off new).length = max l.length (off + new.length) := by
  simp only [patch, List.length_append, List.length_take, List.length_replicate,
    List.length_drop]
  omega

lemma length_patch_of_le {fill : α} {l : List α} {off : ℕ} {new : List α}
    (h : off + new.length ≤ l.length) : (patch fill l off new).length = l.length := by
  rw [length_patch]; omega

/-- What a patched sequence holds at each index. -/
lemma getElem?_patch (fill : α) (l : List α) (off : ℕ) (new : List α) (i : ℕ) :
    (patch fill l off new)[i]? =
      if i < off then (if i < l.length then l[i]? else some fill)
      else if i < off + new.length then new[i - off]? else l[i]? := by
  simp only [patch, List.getElem?_append, List.length_append, List.length_take,
    List.length_replicate, List.getElem?_take, List.getElem?_replicate, List.getElem?_drop]
  split_ifs <;> first | rfl | omega | (congr 1; omega)

/-- Past the patch nothing changes. -/
lemma getElem?_patch_of_ge {fill : α} {l : List α} {off : ℕ} {new : List α} {i : ℕ}
    (h : off + new.length ≤ i) : (patch fill l off new)[i]? = l[i]? := by
  rw [getElem?_patch, if_neg (by omega), if_neg (by omega)]

lemma getElem?_patch_of_lt {fill : α} {l : List α} {off : ℕ} {new : List α} {i : ℕ}
    (h : i < off) (hl : i < l.length) : (patch fill l off new)[i]? = l[i]? := by
  rw [getElem?_patch, if_pos h, if_pos hl]

/-- A run reads back as it was written. -/
theorem slice_patch_same (fill : α) (l : List α) (off : ℕ) (new : List α) :
    slice (patch fill l off new) off new.length = new := by
  refine List.ext_getElem? ?_
  intro i
  rw [getElem?_slice, getElem?_patch]
  split_ifs with h1 h2 h3
  · omega
  · omega
  · congr 1; omega
  · omega
  · exact (List.getElem?_eq_none (by omega)).symm

/-- A patch leaves a run it does not meet alone, as long as the run lies inside the sequence. -/
theorem slice_patch_of_disjoint (fill : α) {l : List α} {off n a len : ℕ} {new : List α}
    (hn : new.length = n) (hd : a + len ≤ off ∨ off + n ≤ a) (hl : a + len ≤ l.length) :
    slice (patch fill l off new) a len = slice l a len := by
  refine List.ext_getElem? ?_
  intro i
  simp only [getElem?_slice]
  split_ifs with hi
  · rcases hd with hd | hd
    · exact getElem?_patch_of_lt (by omega) (by omega)
    · exact getElem?_patch_of_ge (by omega)
  · rfl

/-- Two patches, the second right after the first, are one. -/
lemma patch_patch_append (fill : α) (l : List α) (off : ℕ) (xs ys : List α) :
    patch fill (patch fill l off xs) (off + xs.length) ys = patch fill l off (xs ++ ys) := by
  refine List.ext_getElem? ?_
  intro i
  simp only [getElem?_patch, length_patch, List.length_append]
  split_ifs <;>
    first
    | rfl
    | omega
    | (rw [List.getElem?_append_left (by omega)])
    | (rw [List.getElem?_append_right (by omega)]; congr 1; omega)

/-- Of two patches at one place the second remains. -/
lemma patch_patch_same (fill : α) (l : List α) (off : ℕ) {xs ys : List α}
    (h : xs.length = ys.length) :
    patch fill (patch fill l off xs) off ys = patch fill l off ys := by
  refine List.ext_getElem? ?_
  intro i
  simp only [getElem?_patch, length_patch]
  split_ifs <;> first | rfl | omega

/-- Writing what is there changes nothing. -/
lemma patch_slice (fill : α) {l : List α} {off len : ℕ} (h : off + len ≤ l.length) :
    patch fill l off (slice l off len) = l := by
  refine List.ext_getElem? ?_
  intro i
  rw [getElem?_patch, length_slice_of_le h, getElem?_slice]
  split_ifs with h₁ h₂ h₃ h₄
  · rfl
  · omega
  · rw [Nat.add_sub_cancel' (not_lt.mp h₁)]
  · omega
  · rfl

/-- A patch of the front leaves the rest. -/
lemma drop_patch_zero (fill : α) (l : List α) {n : ℕ} {new : List α} (hn : new.length = n) :
    (patch fill l 0 new).drop n = l.drop n := by
  subst hn
  rw [patch, List.take_zero, Nat.zero_sub, List.replicate_zero, List.nil_append, List.nil_append,
    Nat.zero_add, List.drop_left' rfl]

/-! ## Little-endian numbers -/

/-- The `n` low bytes of `v`, lowest first. -/
def encodeLE : (n : ℕ) → (v : ℕ) → List UInt8
  | 0, _ => []
  | n + 1, v => UInt8.ofNat v :: encodeLE n (v / 256)

/-- The number whose little-endian bytes are given. -/
def decodeLE : List UInt8 → ℕ
  | [] => 0
  | b :: bs => b.toNat + 256 * decodeLE bs

@[simp] lemma length_encodeLE (n v : ℕ) : (encodeLE n v).length = n := by
  induction n generalizing v with
  | zero => rfl
  | succ n ih => simp [encodeLE, ih]

lemma decodeLE_lt (bs : List UInt8) : decodeLE bs < 256 ^ bs.length := by
  induction bs with
  | nil => simp [decodeLE]
  | cons b bs ih =>
      have hb : b.toNat < 256 := b.toNat_lt
      simp only [decodeLE, List.length_cons, pow_succ]
      omega

/-- Encoding keeps a number modulo its width. -/
theorem decodeLE_encodeLE (n v : ℕ) : decodeLE (encodeLE n v) = v % 256 ^ n := by
  induction n generalizing v with
  | zero => simp [encodeLE, decodeLE, Nat.mod_one]
  | succ n ih =>
      simp only [encodeLE, decodeLE, ih, UInt8.toNat_ofNat']
      rw [show (2 : ℕ) ^ 8 = 256 from rfl, pow_succ, Nat.mul_comm (256 ^ n), Nat.mod_mul]

lemma decodeLE_encodeLE_of_lt {n v : ℕ} (h : v < 256 ^ n) : decodeLE (encodeLE n v) = v := by
  rw [decodeLE_encodeLE, Nat.mod_eq_of_lt h]

/-- Bytes are the encoding of the number they denote. -/
lemma encodeLE_decodeLE (bs : List UInt8) : encodeLE bs.length (decodeLE bs) = bs := by
  induction bs with
  | nil => rfl
  | cons b bs ih =>
      have hb : b.toNat < 256 := b.toNat_lt
      have hq : (b.toNat + 256 * decodeLE bs) / 256 = decodeLE bs := by omega
      have hr : UInt8.ofNat (b.toNat + 256 * decodeLE bs) = b := by
        refine UInt8.toNat_inj.mp ?_
        rw [UInt8.toNat_ofNat', show (2 : ℕ) ^ 8 = 256 from rfl]
        omega
      simp only [List.length_cons, encodeLE, decodeLE, hq, hr, ih]

end Bytes
