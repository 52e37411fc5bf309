import DbToy.Lib.Bytes

/-!
# Records laid out in a block

A layout gives every field of a record its run of a block of memory.  That the runs lie inside the
block and do not overlap is part of the layout, so a place that is computed wrongly makes no layout.

`read_write_same` and `read_write_of_ne` are then all there is to know about one write: the field
reads back and the others are as they were.  `read_writes` carries a property of one field through a
sequence of writes.

`Layout.ofCells` is the layout of a header with an array of equal cells behind it, where only the
fields of one cell, and those of the header, have to be told apart.
-/

namespace Bytes

/-- Where the fields of a record are in a block of `size` elements.  The fields that are not `valid`
have no place. -/
structure Layout (φ : Type) (size : ℕ) where
  valid : φ → Prop
  start : φ → ℕ
  width : φ → ℕ
  fits : ∀ {f}, valid f → start f + width f ≤ size
  disjoint : ∀ {f g}, valid f → valid g → f ≠ g →
    start f + width f ≤ start g ∨ start g + width g ≤ start f

namespace Layout

/-! ## Cells behind a header -/

/-- The layout of a header and of `count` cells of `stride` elements behind it; `cell f` is the cell
that a field is in, if it is not in the header. -/
def ofCells {φ : Type} {size : ℕ} (valid : φ → Prop) (start width : φ → ℕ) (cell : φ → Option ℕ)
    (header stride count : ℕ) (hsize : header + count * stride ≤ size)
    (hheader : ∀ f, valid f → cell f = none → start f + width f ≤ header)
    (hcell : ∀ f i, valid f → cell f = some i →
      i < count ∧ header + i * stride ≤ start f ∧ start f + width f ≤ header + (i + 1) * stride)
    (hsame : ∀ f g, valid f → valid g → f ≠ g → cell f = cell g →
      start f + width f ≤ start g ∨ start g + width g ≤ start f) : Layout φ size where
  valid := valid
  start := start
  width := width
  fits := by
    intro f hf
    cases hc : cell f with
    | none =>
        have hend := hheader f hf hc
        omega
    | some i =>
        obtain ⟨hi, -, hend⟩ := hcell f i hf hc
        have hle : (i + 1) * stride ≤ count * stride := Nat.mul_le_mul_right stride hi
        omega
  disjoint := by
    intro f g hf hg hne
    by_cases heq : cell f = cell g
    · exact hsame f g hf hg hne heq
    · cases hcf : cell f with
      | none =>
          have hend := hheader f hf hcf
          cases hcg : cell g with
          | none => exact absurd (hcf.trans hcg.symm) heq
          | some j =>
              obtain ⟨-, hstart, -⟩ := hcell g j hg hcg
              omega
      | some i =>
          obtain ⟨-, hstart, hend⟩ := hcell f i hf hcf
          cases hcg : cell g with
          | none =>
              have hend' := hheader g hg hcg
              omega
          | some j =>
              obtain ⟨-, hstart', hend'⟩ := hcell g j hg hcg
              -- the earlier cell ends where the next one starts
              rcases Nat.lt_trichotomy i j with hij | rfl | hij
              · have hle : (i + 1) * stride ≤ j * stride := Nat.mul_le_mul_right stride hij
                omega
              · exact absurd (hcf.trans hcg.symm) heq
              · have hle : (j + 1) * stride ≤ i * stride := Nat.mul_le_mul_right stride hij
                omega

/-! ## Reading and writing fields -/

variable {α φ : Type} {size : ℕ} (L : Layout φ size)

def read (l : List α) (f : φ) : List α := slice l (L.start f) (L.width f)

/-- The block after a field and its new content. -/
def write (fill : α) (l : List α) (w : φ × List α) : List α := patch fill l (L.start w.1) w.2

/-- A write that fills exactly one field. -/
def Admits (w : φ × List α) : Prop := L.valid w.1 ∧ w.2.length = L.width w.1

variable {L} {fill : α} {l : List α} {f : φ} {w : φ × List α}

lemma length_write (hl : l.length = size) (hw : L.Admits w) :
    (L.write fill l w).length = size := by
  have hfit := L.fits hw.1
  rw [write, length_patch_of_le (by rw [hw.2, hl]; exact hfit), hl]

theorem read_write_same (hw : L.Admits w) : L.read (L.write fill l w) w.1 = w.2 := by
  rw [read, write, ← hw.2]
  exact slice_patch_same fill l (L.start w.1) w.2

theorem read_write_of_ne (hl : l.length = size) (hw : L.Admits w) (hf : L.valid f)
    (hne : f ≠ w.1) : L.read (L.write fill l w) f = L.read l f := by
  have hfit := L.fits hf
  exact slice_patch_of_disjoint fill hw.2 (L.disjoint hf hw.1 hne) (by rw [hl]; exact hfit)

/-- **What a field reads after any writes**: a property that it has before them, and that every
write to it gives it. -/
theorem read_writes {P : List α → Prop} (hf : L.valid f) : ∀ (ws : List (φ × List α)) (l : List α),
    l.length = size → (∀ w ∈ ws, L.Admits w) → (∀ w ∈ ws, w.1 = f → P w.2) → P (L.read l f) →
    P (L.read (ws.foldl (L.write fill) l) f) := by
  intro ws
  induction ws with
  | nil =>
      intro l _ _ _ h
      exact h
  | cons w ws ih =>
      intro l hl hall hP h
      have hw := hall w List.mem_cons_self
      refine ih (L.write fill l w) (length_write hl hw)
        (fun w' hw' => hall w' (List.mem_cons_of_mem _ hw'))
        (fun w' hw' => hP w' (List.mem_cons_of_mem _ hw')) ?_
      by_cases heq : w.1 = f
      · subst heq
        rw [read_write_same hw]
        exact hP w List.mem_cons_self rfl
      · rw [read_write_of_ne hl hw hf (Ne.symm heq)]
        exact h

end Layout

end Bytes
