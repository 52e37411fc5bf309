import DbToy.Lib.Bytes
import DbToy.Params

/-!
# Pages

A page is `PAGE_SIZE` bytes of memory.  `get` and `set` are the access at an offset that is known
to stay inside, used for header fields; `load` and `store` are the access at a computed offset,
which is a fault where it leaves the page.

`get_set_same` and `get_set_of_disjoint` are what every reading of a written page reduces to.
-/

namespace DbToy

open Bytes

/-- What `serialize` writes to its destination. -/
abbrev Row : Type := List UInt8

/-- A block of `PAGE_SIZE` bytes. -/
structure Page where
  bytes : List UInt8
  length_bytes : bytes.length = pageSize

namespace Page

@[ext] lemma ext {p q : Page} (h : p.bytes = q.bytes) : p = q := by
  cases p; cases q; cases h; rfl

/-- The page with `b` in every byte. -/
def filled (b : UInt8) : Page := ⟨List.replicate pageSize b, List.length_replicate⟩

def get (p : Page) (off len : ℕ) : List UInt8 := slice p.bytes off len

def set (p : Page) (off : ℕ) (bs : List UInt8) : Page :=
  if h : off + bs.length ≤ pageSize then
    ⟨patch 0 p.bytes off bs, by
      rw [length_patch_of_le (by rw [p.length_bytes]; exact h), p.length_bytes]⟩
  else p

def load (p : Page) (off len : ℕ) : Except Fault (List UInt8) :=
  if off + len ≤ pageSize then .ok (p.get off len) else .error (.outsidePage off)

def store (p : Page) (off : ℕ) (bs : List UInt8) : Except Fault Page :=
  if off + bs.length ≤ pageSize then .ok (p.set off bs) else .error (.outsidePage off)

lemma load_of_le {p : Page} {off len : ℕ} (h : off + len ≤ pageSize) :
    p.load off len = .ok (p.get off len) := if_pos h

lemma store_of_le {p : Page} {off : ℕ} {bs : List UInt8} (h : off + bs.length ≤ pageSize) :
    p.store off bs = .ok (p.set off bs) := if_pos h

lemma length_get {p : Page} {off len : ℕ} (h : off + len ≤ pageSize) :
    (p.get off len).length = len :=
  length_slice_of_le (by rw [p.length_bytes]; exact h)

/-- A run inside a run. -/
lemma get_get {p : Page} {off len i n : ℕ} (h : i + n ≤ len) :
    slice (p.get off len) i n = p.get (off + i) n :=
  slice_slice _ _ _ _ _ h

lemma get_add (p : Page) (off m n : ℕ) : p.get off (m + n) = p.get off m ++ p.get (off + m) n :=
  slice_add _ _ _ _

theorem get_set_same {p : Page} {off n : ℕ} {bs : List UInt8} (hn : bs.length = n)
    (h : off + n ≤ pageSize) : (p.set off bs).get off n = bs := by
  subst hn
  rw [set, dif_pos h, get]
  exact slice_patch_same _ _ _ _

theorem get_set_of_disjoint {p : Page} {off n a len : ℕ} {bs : List UInt8} (hn : bs.length = n)
    (hd : a + len ≤ off ∨ off + n ≤ a) (hl : a + len ≤ pageSize) :
    (p.set off bs).get a len = p.get a len := by
  rw [set]
  split_ifs with h
  · exact slice_patch_of_disjoint 0 hn hd (by rw [p.length_bytes]; exact hl)
  · rfl

/-- Of two writes of one length to one place the second remains. -/
lemma set_set_same (p : Page) {off : ℕ} {xs ys : List UInt8} (h : xs.length = ys.length) :
    (p.set off xs).set off ys = p.set off ys := by
  by_cases hle : off + ys.length ≤ pageSize
  · have hle' : off + xs.length ≤ pageSize := h.symm ▸ hle
    refine Page.ext ?_
    simp only [set, dif_pos hle, dif_pos hle']
    exact patch_patch_same 0 p.bytes off h
  · have hle' : ¬off + xs.length ≤ pageSize := h.symm ▸ hle
    simp only [set, dif_neg hle, dif_neg hle']

/-- Writing what is there changes nothing. -/
lemma set_get {p : Page} {off n : ℕ} (h : off + n ≤ pageSize) : p.set off (p.get off n) = p := by
  refine Page.ext ?_
  rw [set, dif_pos (by rw [length_get h]; exact h)]
  exact patch_slice 0 (by rw [p.length_bytes]; exact h)

end Page

end DbToy
