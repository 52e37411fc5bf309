import DbToy.Lib.Bytes
import DbToy.Params

/-!
# Files and buffered transfers

A file is a sequence of bytes that `lseek`, `read` and `write` access at the descriptor's offset.
The kernel may transfer fewer bytes than asked: `counts` is what it grants to the calls still to
come, and nothing is assumed about it beyond "at least one byte and at most the request".

`readBuffer` and `writeBuffer` are the loops of `dbfile.cpp` that repeat a transfer until the
buffer is used up.  `readBuffer_spec` and `writeBuffer_spec` say that their effect does not depend
on `counts`; every client in this development uses them through these two.  Together they are
`buffered_transfers_exact`: what is transferred, what is counted and that a write reads back.
-/

namespace DbToy

open Bytes

/-- An open file: its content, the descriptor's offset, and what the kernel will grant. -/
structure FileDesc where
  bytes : List UInt8
  pos : ℕ
  counts : ℕ → ℕ

namespace FileDesc

def grant (fd : FileDesc) (request : ℕ) : ℕ := max 1 (min (fd.counts 0) request)

def lseek (fd : FileDesc) (offset : ℕ) : FileDesc := { fd with pos := offset }

/-- `read(fd, dst, request)`: the bytes put at `dst`; none at the end of the file. -/
def read (fd : FileDesc) (request : ℕ) : List UInt8 × FileDesc :=
  let out := slice fd.bytes fd.pos (fd.grant request)
  (out, { fd with pos := fd.pos + out.length, counts := fun i => fd.counts (i + 1) })

/-- `write(fd, src, request)`: how many bytes of `src` were written.  A write that starts past the
end of the file leaves a hole of zeros. -/
def write (fd : FileDesc) (src : List UInt8) : ℕ × FileDesc :=
  let n := fd.grant src.length
  (n, { bytes := patch 0 fd.bytes fd.pos (src.take n), pos := fd.pos + n,
        counts := fun i => fd.counts (i + 1) })

lemma grant_pos (fd : FileDesc) (n : ℕ) : 0 < fd.grant n := by
  rw [grant]; omega

lemma grant_le (fd : FileDesc) {n : ℕ} (h : 0 < n) : fd.grant n ≤ n := by
  rw [grant]; omega

end FileDesc

/-- `read_buffer(fd, dst, buffer_size)`, where `dst` is the buffer's content: the count it
returns, the buffer afterwards, and the descriptor. -/
def readBuffer (fd : FileDesc) (dst : List UInt8) : ℕ × List UInt8 × FileDesc :=
  if 0 < dst.length then
    match fd.read dst.length with
    | (out, fd') =>
      if out.length = 0 then (0, dst, fd')
      else
        match readBuffer fd' (dst.drop out.length) with
        | (nread, rest, fd'') => (out.length + nread, out ++ rest, fd'')
  else (0, dst, fd)
termination_by dst.length
decreasing_by simp only [List.length_drop]; omega

/-- `write_buffer(fd, src, buffer_size)`: the count it returns and the descriptor. -/
def writeBuffer (fd : FileDesc) (src : List UInt8) : ℕ × FileDesc :=
  if 0 < src.length then
    match writeBuffer (fd.write src).2 (src.drop (fd.write src).1) with
    | (nwrite, fd') => ((fd.write src).1 + nwrite, fd')
  else (0, fd)
termination_by src.length
decreasing_by
  have hg : 0 < (fd.write src).1 := fd.grant_pos src.length
  simp only [List.length_drop]
  omega

/-- **The effect of a buffered read does not depend on how the kernel splits it**: the run of the
file at the offset replaces the front of the buffer. -/
theorem readBuffer_spec (fd : FileDesc) (dst : List UInt8) :
    ∃ counts, readBuffer fd dst
      = ((slice fd.bytes fd.pos dst.length).length,
         slice fd.bytes fd.pos dst.length
           ++ dst.drop (slice fd.bytes fd.pos dst.length).length,
         { fd with pos := fd.pos + (slice fd.bytes fd.pos dst.length).length,
                   counts := counts }) := by
  induction hn : dst.length using Nat.strong_induction_on generalizing fd dst with
  | _ n ih =>
    subst hn
    by_cases hpos : 0 < dst.length
    · have hg₀ := fd.grant_pos dst.length
      have hg := fd.grant_le hpos
      -- the answer of one `read`, and the run it leaves to the later ones
      set k := fd.grant dst.length with hk
      set out := slice fd.bytes fd.pos k with hout
      have hlen : out.length = min k (fd.bytes.length - fd.pos) := length_slice _ _ _
      have hrun : slice fd.bytes fd.pos dst.length
          = out ++ slice fd.bytes (fd.pos + k) (dst.length - k) := by
        rw [hout, ← slice_add]; congr 1; omega
      rw [readBuffer, if_pos hpos]
      simp only [FileDesc.read, ← hk, ← hout]
      by_cases hz : out.length = 0
      · have hnil : slice fd.bytes fd.pos dst.length = [] := by
          refine List.length_eq_zero_iff.mp ?_
          rw [length_slice]; omega
        refine ⟨fun i => fd.counts (i + 1), ?_⟩
        rw [if_pos hz, hnil, hz]
        simp only [List.length_nil, List.nil_append, List.drop_zero]
      · rw [if_neg hz]
        obtain ⟨counts, ih⟩ := ih _ (by rw [List.length_drop]; omega)
          { fd with pos := fd.pos + out.length, counts := fun i => fd.counts (i + 1) }
          (dst.drop out.length) rfl
        -- a short answer means that the file ends there, so the rest of the run is empty
        have hrest : slice fd.bytes (fd.pos + out.length) (dst.length - out.length)
            = slice fd.bytes (fd.pos + k) (dst.length - k) := by
          rcases Nat.lt_or_ge (fd.bytes.length - fd.pos) k with h | h
          · rw [slice_of_length_le (by omega), slice_of_length_le (by omega)]
          · rw [show out.length = k by omega]
        simp only [List.length_drop] at ih
        rw [hrest] at ih
        refine ⟨counts, ?_⟩
        rw [ih, hrun]
        simp only [List.length_append, List.append_assoc, List.drop_drop, Nat.add_assoc]
    · have hd : dst = [] := List.length_eq_zero_iff.mp (by omega)
      subst hd
      exact ⟨fd.counts, by simp [readBuffer, slice]⟩

lemma length_readBuffer (fd : FileDesc) (dst : List UInt8) :
    (readBuffer fd dst).2.1.length = dst.length := by
  obtain ⟨counts, h⟩ := readBuffer_spec fd dst
  rw [h, List.length_append, List.length_drop, length_slice]
  omega

/-- **The effect of a buffered write does not depend on how the kernel splits it**: the whole
buffer is written at the offset. -/
theorem writeBuffer_spec (fd : FileDesc) (src : List UInt8) (hsrc : src ≠ []) :
    ∃ counts, writeBuffer fd src
      = (src.length, { bytes := patch 0 fd.bytes fd.pos src, pos := fd.pos + src.length,
                       counts := counts }) := by
  induction hn : src.length using Nat.strong_induction_on generalizing fd src with
  | _ n ih =>
    subst hn
    have hpos : 0 < src.length := List.length_pos_iff.mpr hsrc
    have hg₀ := fd.grant_pos src.length
    have hg := fd.grant_le hpos
    set k := fd.grant src.length with hk
    have htake : (src.take k).length = k := by rw [List.length_take]; omega
    rw [writeBuffer, if_pos hpos]
    simp only [FileDesc.write, ← hk]
    by_cases hd : src.drop k = []
    · have hall : src.take k = src := by
        rw [List.take_of_length_le]; exact List.drop_eq_nil_iff.mp hd
      have hlen : src.length = k := by rw [← htake, hall]
      refine ⟨fun i => fd.counts (i + 1), ?_⟩
      rw [hd, hall, writeBuffer, if_neg (by simp), hlen]
      rfl
    · obtain ⟨counts, ih⟩ := ih _ (by rw [List.length_drop]; omega)
        { bytes := patch 0 fd.bytes fd.pos (src.take k), pos := fd.pos + k,
          counts := fun i => fd.counts (i + 1) } (src.drop k) hd rfl
      have hjoin : patch 0 (patch 0 fd.bytes fd.pos (src.take k)) (fd.pos + k) (src.drop k)
          = patch 0 fd.bytes fd.pos src := by
        have h := patch_patch_append 0 fd.bytes fd.pos (src.take k) (src.drop k)
        rwa [htake, List.take_append_drop] at h
      refine ⟨counts, ?_⟩
      rw [ih, hjoin]
      simp only [List.length_drop, Nat.add_assoc, Nat.add_sub_cancel' hg]

/-! ## Exact transfers -/

lemma readBuffer_bytes (fd : FileDesc) (dst : List UInt8) :
    (readBuffer fd dst).2.2.bytes = fd.bytes := by
  obtain ⟨counts, h⟩ := readBuffer_spec fd dst
  rw [h]

/-- The file after a buffered write.  A write of no bytes does not even fill the hole. -/
lemma writeBuffer_bytes (fd : FileDesc) (src : List UInt8) :
    (writeBuffer fd src).2.bytes
      = if src = [] then fd.bytes else patch 0 fd.bytes fd.pos src := by
  by_cases hsrc : src = []
  · subst hsrc
    rw [writeBuffer]
    simp
  · obtain ⟨counts, h⟩ := writeBuffer_spec fd src hsrc
    rw [h, if_neg hsrc]

lemma writeBuffer_length (fd : FileDesc) (src : List UInt8) :
    (writeBuffer fd src).1 = src.length := by
  by_cases hsrc : src = []
  · subst hsrc
    rw [writeBuffer]
    simp
  · obtain ⟨counts, h⟩ := writeBuffer_spec fd src hsrc
    rw [h]

/-- A buffer that fits in the rest of the file is filled with the run at the offset. -/
lemma readBuffer_full (fd : FileDesc) {dst : List UInt8}
    (h : fd.pos + dst.length ≤ fd.bytes.length) :
    (readBuffer fd dst).2.1 = slice fd.bytes fd.pos dst.length := by
  obtain ⟨counts, hread⟩ := readBuffer_spec fd dst
  have hlen := length_slice_of_le h
  rw [hread, hlen, List.drop_length, List.append_nil]

/-- **Buffered transfers are exact.**  Whatever the kernel grants, `readBuffer` fills the front of
the buffer with the bytes the file has at the offset and counts them, `writeBuffer` puts the whole
buffer at the offset, and what was written reads back, also when the kernel splits the second
transfer in another way. -/
theorem buffered_transfers_exact (fd : FileDesc) (dst src : List UInt8) :
    (readBuffer fd dst).1 = min dst.length (fd.bytes.length - fd.pos)
      ∧ (readBuffer fd dst).2.1
          = slice fd.bytes fd.pos dst.length
            ++ dst.drop (min dst.length (fd.bytes.length - fd.pos))
      ∧ (readBuffer fd dst).2.2.bytes = fd.bytes
      ∧ (writeBuffer fd src).1 = src.length
      ∧ (writeBuffer fd src).2.bytes
          = (if src = [] then fd.bytes else patch 0 fd.bytes fd.pos src)
      ∧ ∀ (buffer : List UInt8) (counts : ℕ → ℕ), buffer.length = src.length →
          (readBuffer { (writeBuffer fd src).2 with pos := fd.pos, counts := counts } buffer).2.1
            = src := by
  obtain ⟨counts, hread⟩ := readBuffer_spec fd dst
  refine ⟨?_, ?_, readBuffer_bytes fd dst, writeBuffer_length fd src, writeBuffer_bytes fd src, ?_⟩
  · rw [hread, length_slice]
  · rw [hread, length_slice]
  · intro buffer counts hlen
    by_cases hsrc : src = []
    · subst hsrc
      have hnil : buffer = [] := List.length_eq_zero_iff.mp hlen
      subst hnil
      exact List.length_eq_zero_iff.mp (length_readBuffer _ _)
    · have hbytes : (writeBuffer fd src).2.bytes = patch 0 fd.bytes fd.pos src := by
        rw [writeBuffer_bytes, if_neg hsrc]
      rw [readBuffer_full _ (by simp only [hbytes, length_patch, hlen]; omega)]
      simp only [hbytes, hlen]
      exact slice_patch_same 0 fd.bytes fd.pos src

/-- Three bytes written one at a time past the end of a file, and read back two at a time. -/
theorem buffered_transfers_exact_split :
    (readBuffer
        { (writeBuffer { bytes := [1], pos := 2, counts := fun _ => 1 } [7, 8, 9]).2 with
          pos := 2, counts := fun _ => 2 } [0, 0, 0]).2.1 = [7, 8, 9] :=
  (buffered_transfers_exact { bytes := [1], pos := 2, counts := fun _ => 1 } [] [7, 8, 9]
    ).2.2.2.2.2 [0, 0, 0] (fun _ => 2) rfl

end DbToy
