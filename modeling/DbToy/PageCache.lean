import DbToy.DbFile
import DbToy.Lib.Runs

/-!
# What the page cache remembers

A client of `DbFile` gets pages, writes into pages it has got, and flushes pages in full, in any
order.  A coherent cache gives back of a page that has been written in full the bytes last written.

`DbFile` counts the pages of its file once, when it is opened, and `get_page` reads from the file
only below that count.  A page behind it that is flushed is in the file and yet comes back as a
fresh block.  `page_cache_coherent_iff` says that this is the only loss: the cache is coherent on a
sequence of calls exactly if no page behind the count is got again after a flush before it has been
written in full once more.

* `lastByte`, `heldByte`: what the calls have written, all of them and those since the last flush.
* `DbFile.Remembers`: what the cache has of it, kept by every call (`answerCall_spec`).
-/

namespace DbToy

open Bytes Runs

/-- A call of the page cache; `write` goes through the pointer that `get_page` gave. -/
inductive PageCall where
  | get (id : ℕ)
  | write (id offset : ℕ) (bytes : List UInt8)
  | flush (id : ℕ)

inductive PageReply where
  | page (page : Page)
  | done

namespace DbFile

def answerCall : PageCall → DbFile → Except Fault (PageReply × DbFile)
  | .get id, f => do
      let (page, f) ← f.getPage id
      .ok (.page page, f)
  | .write id offset bytes, f => do
      let f ← f.write id offset bytes
      .ok (.done, f)
  | .flush id, f => do
      let f ← f.flushPage id pageSize
      .ok (.done, f)

end DbFile

/-! ## What the calls say -/

namespace PageCall

/-- What a call makes of the byte at an offset of a page. -/
def writes (id o : ℕ) (old : Option UInt8) : PageCall → Option UInt8
  | write i offset bytes =>
    if i = id ∧ offset ≤ o ∧ o < offset + bytes.length then bytes[o - offset]? else old
  | _ => old

/-- The same, for the bytes that have been written since the page was last flushed. -/
def holds (id o : ℕ) (old : Option UInt8) : PageCall → Option UInt8
  | flush i => if i = id then none else old
  | c => c.writes id o old

def loads (id : ℕ) (old : Bool) : PageCall → Bool
  | get i => old || i == id
  | flush i => old && i != id
  | _ => old

end PageCall

/-- The byte last written at an offset of a page. -/
def lastByte (id o : ℕ) (past : List PageCall) : Option UInt8 :=
  past.foldl (PageCall.writes id o) none

/-- The byte last written there since the page was flushed. -/
def heldByte (id o : ℕ) (past : List PageCall) : Option UInt8 :=
  past.foldl (PageCall.holds id o) none

/-- The page has been got and not flushed since. -/
def inMemory (id : ℕ) (past : List PageCall) : Bool := past.foldl (PageCall.loads id) false

def WrittenInFull (id : ℕ) (past : List PageCall) : Prop :=
  ∀ o < pageSize, lastByte id o past ≠ none

def HeldInFull (id : ℕ) (past : List PageCall) : Prop := ∀ o < pageSize, heldByte id o past ≠ none

/-- A call that a client may make: ids of the page array, and writes that stay inside a page it has
got. -/
def PageCall.Allowed (past : List PageCall) : PageCall → Prop
  | get id => id < tableMaxPages
  | write id offset bytes =>
    id < tableMaxPages ∧ inMemory id past = true ∧ offset + bytes.length ≤ pageSize
  | flush id => id < tableMaxPages

/-- A page that has been written in full is got as it was last written. -/
def Coherent (calls : List PageCall) (replies : List PageReply) : Prop :=
  ∀ before id after, calls = before ++ .get id :: after → WrittenInFull id before →
    ∃ page, replies[before.length]? = some (.page page) ∧
      ∀ o < pageSize, page.bytes[o]? = lastByte id o before

/-- The number of pages that `DbFile` counts when it opens the file. -/
def pagesAtOpen (file : Option (List UInt8)) : ℕ :=
  ((file.getD []).length % 2 ^ 32 + pageSize - 1) / pageSize % 2 ^ 32

/-- The page that is got is one of the file as it was opened, or has been written in full since it
was flushed. -/
def PageCall.Kept (numPages : ℕ) (past : List PageCall) : PageCall → Prop
  | get id => WrittenInFull id past → id < numPages ∨ HeldInFull id past
  | _ => True

/-! ## The written bytes -/

section

variable (id o : ℕ) (past : List PageCall)

lemma lastByte_concat (c : PageCall) :
    lastByte id o (past ++ [c]) = c.writes id o (lastByte id o past) := by
  simp [lastByte]

lemma heldByte_concat (c : PageCall) :
    heldByte id o (past ++ [c]) = c.holds id o (heldByte id o past) := by
  simp [heldByte]

lemma inMemory_concat (c : PageCall) :
    inMemory id (past ++ [c]) = c.loads id (inMemory id past) := by
  simp [inMemory]

/-- What is held is what was last written. -/
lemma lastByte_of_heldByte {x : UInt8} : heldByte id o past = some x →
    lastByte id o past = some x := by
  induction past using List.reverseRecOn generalizing x with
  | nil => simp [heldByte]
  | append_singleton past c ih =>
      rw [heldByte_concat, lastByte_concat]
      cases c with
      | get i => exact ih
      | write i offset bytes =>
          simp only [PageCall.holds, PageCall.writes]
          split_ifs
          · intro h
            exact h
          · exact ih
      | flush i =>
          simp only [PageCall.holds, PageCall.writes]
          split_ifs
          · simp
          · exact ih

end

/-- What the cache can still know of a byte: pages behind the count are forgotten when they are
flushed. -/
def known (n id o : ℕ) (past : List PageCall) : Option UInt8 :=
  if id < n then lastByte id o past else heldByte id o past

section

variable (n id o i : ℕ) (past : List PageCall)

lemma known_get : known n id o (past ++ [.get i]) = known n id o past := by
  rw [known, known, lastByte_concat, heldByte_concat]
  rfl

lemma known_write (offset : ℕ) (bytes : List UInt8) :
    known n id o (past ++ [.write i offset bytes])
      = if i = id ∧ offset ≤ o ∧ o < offset + bytes.length then bytes[o - offset]?
        else known n id o past := by
  rw [known, known, lastByte_concat, heldByte_concat]
  simp only [PageCall.holds, PageCall.writes]
  split_ifs <;> rfl

lemma known_flush : known n id o (past ++ [.flush i])
    = if i = id ∧ n ≤ id then none else known n id o past := by
  rw [known, known, lastByte_concat, heldByte_concat]
  simp only [PageCall.holds, PageCall.writes]
  split_ifs <;> first | rfl | omega

end

/-! ## What the cache has -/

lemma Page.getElem?_set {page : Page} {offset : ℕ} {bytes : List UInt8}
    (h : offset + bytes.length ≤ pageSize) (o : ℕ) :
    (page.set offset bytes).bytes[o]?
      = if offset ≤ o ∧ o < offset + bytes.length then bytes[o - offset]? else page.bytes[o]? := by
  have hlen := page.length_bytes
  rw [Page.set, dif_pos h]
  show (patch 0 page.bytes offset bytes)[o]? = _
  rw [getElem?_patch]
  split_ifs <;> first | rfl | omega

namespace DbFile

/-- The cache has every byte it can know: in the page if that is in memory, else in the file.  The
blocks that it is given hold only bytes of `S`, and so do new pages where nothing was written. -/
structure Remembers (S : UInt8 → Prop) (n : ℕ) (past : List PageCall) (f : DbFile) : Prop where
  numPages_eq : f.numPages = n
  blocks : ∀ i, ∀ x ∈ (f.blocks i).bytes, S x
  loaded : ∀ id, (f.pages id).isSome = inMemory id past
  memory : ∀ id page, f.pages id = some page → ∀ o < pageSize, ∀ x,
    known n id o past = some x → page.bytes[o]? = some x
  fresh : ∀ id page, f.pages id = some page → n ≤ id → ∀ o < pageSize,
    heldByte id o past = none → ∃ x, S x ∧ page.bytes[o]? = some x
  stored : ∀ id, f.pages id = none → ∀ o < pageSize, ∀ x, known n id o past = some x →
    id < n ∧ f.fd.bytes[id * pageSize + o]? = some x

/-- What a reply says of the page that was got. -/
def Replied (S : UInt8 → Prop) (n : ℕ) (past : List PageCall) : PageCall → PageReply → Prop
  | .get id, r => ∃ page, r = .page page ∧
      (∀ o < pageSize, ∀ x, known n id o past = some x → page.bytes[o]? = some x) ∧
      (n ≤ id → ∀ o < pageSize, heldByte id o past = none → ∃ x, S x ∧ page.bytes[o]? = some x)
  | _, _ => True

variable {f : DbFile} {id : ℕ}

lemma getPage_blocks (hid : id < tableMaxPages) (hpage : f.pages id = none) {page : Page}
    {f' : DbFile} (h : f.getPage id = .ok (page, f')) :
    (∀ i, f'.blocks i = f.blocks (i + 1)) ∧ (f.numPages ≤ id → page = f.blocks 0) := by
  simp only [getPage, intToSize_natCast hid, if_neg (not_le_of_gt hid), hpage, mallocBlock] at h
  split_ifs at h with hnum
  · cases h
    exact ⟨fun _ => rfl, fun hle => absurd hnum (not_lt.mpr hle)⟩
  · cases h
    exact ⟨fun _ => rfl, fun _ => rfl⟩

lemma flushPage_blocks (hid : id < tableMaxPages) {size : ℕ} {f' : DbFile}
    (h : f.flushPage id size = .ok f') : f'.blocks = f.blocks := by
  simp only [flushPage, intToSize_natCast hid, if_pos hid] at h
  cases hpage : f.pages id with
  | none =>
      rw [hpage] at h
      cases h
      rfl
  | some page =>
      rw [hpage] at h
      obtain ⟨src, -, h⟩ := bind_eq_ok h
      cases h
      rfl

namespace Remembers

variable {S : UInt8 → Prop} {n : ℕ} {past : List PageCall}

/-- **A page is got** from memory, from the file, or as a fresh block. -/
lemma get (h : f.Remembers S n past) (hid : id < tableMaxPages) :
    ∃ r f', answerCall (.get id) f = .ok (r, f') ∧ Replied S n past (.get id) r ∧
      f'.Remembers S n (past ++ [.get id]) := by
  have hloads : ∀ i, inMemory i (past ++ [.get id]) = (inMemory i past || id == i) := fun i =>
    inMemory_concat i past (.get id)
  have hheld : ∀ i o, heldByte i o (past ++ [.get id]) = heldByte i o past := fun i o =>
    heldByte_concat i o past (.get id)
  cases hpage : f.pages id with
  | some page =>
      refine ⟨.page page, f, ?_, ⟨page, rfl, h.memory id page hpage, h.fresh id page hpage⟩, ?_⟩
      · rw [answerCall, getPage_of_some hid hpage, ok_bind]
      · refine ⟨h.numPages_eq, h.blocks, ?_, ?_, ?_, ?_⟩
        · intro i
          rw [hloads, h.loaded]
          by_cases hi : id = i
          · subst hi
            have hin := h.loaded id
            rw [hpage] at hin
            rw [← hin]
            rfl
          · simp [hi]
        · simpa only [known_get] using h.memory
        · simpa only [hheld] using h.fresh
        · simpa only [known_get] using h.stored
  | none =>
      obtain ⟨page, f', hget, hpages, hbytes, -, hnum, hread⟩ := getPage_of_none hid hpage
      obtain ⟨hblocks, hbeyond⟩ := getPage_blocks hid hpage hget
      have hmemory : ∀ o < pageSize, ∀ x, known n id o past = some x → page.bytes[o]? = some x := by
        intro o ho x hx
        obtain ⟨hlt, hfile⟩ := h.stored id hpage o ho x hx
        have hlen := (List.getElem?_eq_some_iff.mp hfile).1
        have hone := hread (by rw [h.numPages_eq]; exact hlt) o 1 ho hlen
        have hbyte := congrArg (fun bs : List UInt8 => bs[0]?) hone
        simp only [Page.get, getElem?_slice, Nat.zero_lt_one, if_true, Nat.add_zero] at hbyte
        rw [hbyte, hfile]
      have hfresh : n ≤ id → ∀ o < pageSize, ∃ x, S x ∧ page.bytes[o]? = some x := by
        intro hle o ho
        obtain rfl := hbeyond (by rw [h.numPages_eq]; exact hle)
        have hlt : o < (f.blocks 0).bytes.length := by
          rw [(f.blocks 0).length_bytes]
          exact ho
        exact ⟨_, h.blocks 0 _ (List.getElem_mem hlt), List.getElem?_eq_getElem hlt⟩
      refine ⟨.page page, f', by rw [answerCall, hget, ok_bind],
        ⟨page, rfl, hmemory, fun hle o ho _ => hfresh hle o ho⟩, hnum.trans h.numPages_eq, ?_, ?_, ?_,
        ?_, ?_⟩
      · intro i x hx
        rw [hblocks] at hx
        exact h.blocks (i + 1) x hx
      · intro i
        rw [hloads, hpages, Function.update_apply]
        by_cases hi : i = id
        · subst hi
          simp
        · rw [if_neg hi, h.loaded]
          simp [Ne.symm hi]
      · intro i page' hi o ho x hx
        rw [known_get] at hx
        rw [hpages, Function.update_apply] at hi
        split_ifs at hi with hid'
        · cases hi
          subst hid'
          exact hmemory o ho x hx
        · exact h.memory i page' hi o ho x hx
      · intro i page' hi hle o ho hnone
        rw [hheld] at hnone
        rw [hpages, Function.update_apply] at hi
        split_ifs at hi with hid'
        · cases hi
          subst hid'
          exact hfresh hle o ho
        · exact h.fresh i page' hi hle o ho hnone
      · intro i hi o ho x hx
        rw [known_get] at hx
        rw [hpages, Function.update_apply] at hi
        split_ifs at hi with hid'
        rw [hbytes]
        exact h.stored i hi o ho x hx

/-- **A write** into a page in memory. -/
lemma write (h : f.Remembers S n past) (hid : id < tableMaxPages) (hin : inMemory id past = true)
    {offset : ℕ} {bytes : List UInt8} (hfit : offset + bytes.length ≤ pageSize) :
    ∃ r f', answerCall (.write id offset bytes) f = .ok (r, f') ∧
      f'.Remembers S n (past ++ [.write id offset bytes]) := by
  obtain ⟨page, hpage⟩ : ∃ page, f.pages id = some page := by
    rw [← h.loaded id] at hin
    exact Option.isSome_iff_exists.mp hin
  have hloads : ∀ i, inMemory i (past ++ [.write id offset bytes]) = inMemory i past := fun i =>
    inMemory_concat i past (.write id offset bytes)
  refine ⟨.done, f.setPage id (some (page.set offset bytes)), ?_, h.numPages_eq, h.blocks, ?_, ?_, ?_,
    ?_⟩
  · simp only [answerCall, DbFile.write, getPage_of_some hid hpage, ok_bind,
      Page.store_of_le hfit, intToSize_natCast hid]
  · intro i
    rw [hloads, setPage_pages]
    split_ifs with hi
    · rw [hi, hin]
      rfl
    · exact h.loaded i
  · intro i page' hi o ho x hx
    rw [known_write] at hx
    rw [setPage_pages] at hi
    split_ifs at hi with hid'
    · cases hi
      subst hid'
      rw [Page.getElem?_set hfit]
      simp only [true_and] at hx
      split_ifs at hx ⊢
      · exact hx
      · exact h.memory i page hpage o ho x hx
    · rw [if_neg (fun hw => hid' hw.1.symm)] at hx
      exact h.memory i page' hi o ho x hx
  · intro i page' hi hle o ho hnone
    rw [heldByte_concat] at hnone
    simp only [PageCall.holds, PageCall.writes] at hnone
    rw [setPage_pages] at hi
    split_ifs at hi with hid'
    · cases hi
      subst hid'
      rw [Page.getElem?_set hfit]
      simp only [true_and] at hnone
      split_ifs at hnone ⊢ with hw
      · -- a byte that is written is held
        exact absurd (List.getElem?_eq_none_iff.mp hnone) (by omega)
      · exact h.fresh i page hpage hle o ho hnone
    · rw [if_neg (fun hw => hid' hw.1.symm)] at hnone
      exact h.fresh i page' hi hle o ho hnone
  · intro i hi o ho x hx
    rw [known_write] at hx
    rw [setPage_pages] at hi
    split_ifs at hi with hid'
    rw [if_neg (fun hw => hid' hw.1.symm)] at hx
    exact h.stored i hi o ho x hx

/-- **A page is flushed** to its place in the file. -/
lemma flush (h : f.Remembers S n past) (hid : id < tableMaxPages) :
    ∃ r f', answerCall (.flush id) f = .ok (r, f') ∧ f'.Remembers S n (past ++ [.flush id]) := by
  have hloads : ∀ i, inMemory i (past ++ [.flush id]) = (inMemory i past && id != i) := fun i =>
    inMemory_concat i past (.flush id)
  have hheld : ∀ i o, heldByte i o (past ++ [.flush id])
      = if id = i then none else heldByte i o past := fun i o => heldByte_concat i o past (.flush id)
  -- what is known of a page after the call was known of it before
  have hknown : ∀ i o x, known n i o (past ++ [.flush id]) = some x →
      known n i o past = some x ∧ (id = i → i < n) := by
    intro i o x hx
    rw [known_flush] at hx
    split_ifs at hx with hforget
    exact ⟨hx, fun hi => not_le.mp fun hle => hforget ⟨hi, hle⟩⟩
  cases hpage : f.pages id with
  | none =>
      refine ⟨.done, f, by rw [answerCall, flushPage_of_none hid hpage, ok_bind], h.numPages_eq,
        h.blocks, ?_, ?_, ?_, ?_⟩
      · intro i
        rw [hloads, h.loaded]
        by_cases hi : id = i
        · subst hi
          have hin := h.loaded id
          rw [hpage] at hin
          rw [← hin]
          rfl
        · simp [hi]
      · intro i page hi o ho x hx
        exact h.memory i page hi o ho x (hknown i o x hx).1
      · intro i page hi hle o ho hnone
        rw [hheld, if_neg] at hnone
        · exact h.fresh i page hi hle o ho hnone
        · rintro rfl
          rw [hpage] at hi
          cases hi
      · intro i hi o ho x hx
        exact h.stored i hi o ho x (hknown i o x hx).1
  | some page =>
      obtain ⟨f', hflush, hpages, hbytes, hnum⟩ :=
        flushPage_of_some hid hpage (show 0 < pageSize by decide) le_rfl
      have hall : page.get 0 pageSize = page.bytes := by
        rw [Page.get, ← page.length_bytes]
        exact slice_zero_length page.bytes
      have hlen := page.length_bytes
      rw [hall] at hbytes
      refine ⟨.done, f', by rw [answerCall, hflush, ok_bind], hnum.trans h.numPages_eq,
        flushPage_blocks hid hflush ▸ h.blocks, ?_, ?_, ?_, ?_⟩
      · intro i
        rw [hloads, hpages, Function.update_apply]
        split_ifs with hi
        · simp [hi]
        · rw [h.loaded]
          simp [Ne.symm hi]
      · intro i page' hi o ho x hx
        rw [hpages, Function.update_apply] at hi
        split_ifs at hi
        exact h.memory i page' hi o ho x (hknown i o x hx).1
      · intro i page' hi hle o ho hnone
        rw [hpages, Function.update_apply] at hi
        split_ifs at hi with hid'
        rw [hheld, if_neg (Ne.symm hid')] at hnone
        exact h.fresh i page' hi hle o ho hnone
      · intro i hi o ho x hx
        obtain ⟨hx', hlt⟩ := hknown i o x hx
        rw [hbytes, getElem?_patch, hlen]
        by_cases hii : id = i
        · subst hii
          refine ⟨hlt rfl, ?_⟩
          rw [if_neg (by omega), if_pos (by omega), Nat.add_sub_cancel_left]
          exact h.memory id page hpage o ho x hx'
        · rw [hpages, Function.update_of_ne (Ne.symm hii)] at hi
          obtain ⟨hlt', hfile⟩ := h.stored i hi o ho x hx'
          refine ⟨hlt', ?_⟩
          have hend := (List.getElem?_eq_some_iff.mp hfile).1
          -- page `i` lies before or behind the page that is written
          rcases Nat.lt_or_gt_of_ne hii with hlt | hgt
          · have hmul : (id + 1) * pageSize ≤ i * pageSize := Nat.mul_le_mul_right pageSize hlt
            rw [Nat.add_mul, Nat.one_mul] at hmul
            rw [if_neg (by omega), if_neg (by omega)]
            exact hfile
          · have hmul : (i + 1) * pageSize ≤ id * pageSize := Nat.mul_le_mul_right pageSize hgt
            rw [Nat.add_mul, Nat.one_mul] at hmul
            rw [if_pos (by omega), if_pos hend]
            exact hfile

end Remembers

/-- **What one call does**, whichever it is. -/
theorem answerCall_spec {S : UInt8 → Prop} {n : ℕ} (past : List PageCall) (c : PageCall)
    (f : DbFile) (h : f.Remembers S n past) (hc : c.Allowed past) :
    ∃ r f', answerCall c f = .ok (r, f') ∧ Replied S n past c r ∧
      f'.Remembers S n (past ++ [c]) := by
  cases c with
  | get id => exact h.get hc
  | write id offset bytes =>
      obtain ⟨r, f', e, h'⟩ := h.write hc.1 hc.2.1 hc.2.2
      exact ⟨r, f', e, trivial, h'⟩
  | flush id =>
      obtain ⟨r, f', e, h'⟩ := h.flush hc
      exact ⟨r, f', e, trivial, h'⟩

/-- A cache that was just opened has nothing to remember. -/
lemma new_remembers {S : UInt8 → Prop} (file : Option (List UInt8)) (counts : ℕ → ℕ)
    {blocks : ℕ → Page} (hblocks : ∀ i, ∀ x ∈ (blocks i).bytes, S x) :
    (new file counts blocks).Remembers S (pagesAtOpen file) [] where
  numPages_eq := rfl
  blocks := hblocks
  loaded _ := rfl
  memory _ _ hpage := by cases hpage
  fresh _ _ hpage := by cases hpage
  stored id _ o _ x hx := by
    rw [known] at hx
    split_ifs at hx <;> cases hx

end DbFile

/-! ## Whole runs -/

/-- Every allowed run is answered, and each page that is got is what the calls before make it. -/
lemma run_calls {S : UInt8 → Prop} (file : Option (List UInt8)) {calls : List PageCall}
    (hcalls : Throughout PageCall.Allowed [] calls) (counts : ℕ → ℕ) {blocks : ℕ → Page}
    (hblocks : ∀ i, ∀ x ∈ (blocks i).bytes, S x) :
    ∃ replies f, runAll DbFile.answerCall calls (DbFile.new file counts blocks) = .ok (replies, f) ∧
      ∀ before c after, calls = before ++ c :: after →
        ∃ r, replies[before.length]? = some r ∧
          DbFile.Replied S (pagesAtOpen file) before c r := by
  obtain ⟨replies, f, hrun, hreplies⟩ := @runAll_of_history _ _ _ _ _
    (DbFile.Remembers S (pagesAtOpen file)) _ _ DbFile.answerCall_spec _ _ _
    (DbFile.new_remembers file counts hblocks) hcalls
  exact ⟨replies, f, hrun, hreplies⟩

/-- Where no page is lost, every page comes back as it was last written. -/
theorem coherent_of_kept (file : Option (List UInt8)) {calls : List PageCall}
    (hcalls : Throughout PageCall.Allowed [] calls)
    (hkept : Throughout (PageCall.Kept (pagesAtOpen file)) [] calls) (counts : ℕ → ℕ)
    (blocks : ℕ → Page) :
    ∃ replies f, runAll DbFile.answerCall calls (DbFile.new file counts blocks) = .ok (replies, f) ∧
      Coherent calls replies := by
  have hblocks : ∀ i, ∀ x ∈ (blocks i).bytes, True := fun _ _ _ => trivial
  obtain ⟨replies, f, hrun, hreplies⟩ := run_calls (S := fun _ => True) file hcalls counts hblocks
  refine ⟨replies, f, hrun, ?_⟩
  intro before id after hsplit hfull
  obtain ⟨r, hr, page, rfl, hknown, -⟩ := hreplies before (.get id) after hsplit
  refine ⟨page, hr, ?_⟩
  intro o ho
  obtain ⟨x, hx⟩ := Option.ne_none_iff_exists'.mp (hfull o ho)
  rw [hx]
  refine hknown o ho x ?_
  rw [known]
  split_ifs with hlt
  · exact hx
  · -- behind the count the page has been written in full since it was flushed
    have hheld := (throughout_iff.mp hkept before (.get id) after hsplit hfull).resolve_left hlt
    rw [List.nil_append] at hheld
    obtain ⟨y, hy⟩ := Option.ne_none_iff_exists'.mp (hheld o ho)
    rw [hy, ← hx]
    exact (lastByte_of_heldByte id o before hy).symm

/-- A page that is lost comes back with the bytes of a fresh block, which may be any. -/
theorem kept_of_coherent (file : Option (List UInt8)) {calls : List PageCall}
    (hcalls : Throughout PageCall.Allowed [] calls)
    (hcoherent : ∀ blocks, ∃ replies f,
      runAll DbFile.answerCall calls (DbFile.new file (fun _ => 0) blocks) = .ok (replies, f) ∧
        Coherent calls replies) :
    Throughout (PageCall.Kept (pagesAtOpen file)) [] calls := by
  refine throughout_iff.mpr ?_
  intro before c after hsplit
  rw [List.nil_append]
  cases c with
  | write id offset bytes => trivial
  | flush id => trivial
  | get id =>
      intro hfull
      by_contra hlost
      rw [not_or, not_lt] at hlost
      obtain ⟨hle, hnot⟩ := hlost
      rw [HeldInFull] at hnot
      push Not at hnot
      obtain ⟨o, ho, hnone⟩ := hnot
      obtain ⟨x, hx⟩ := Option.ne_none_iff_exists'.mp (hfull o ho)
      -- blocks that hold another byte everywhere
      have hblocks : ∀ i : ℕ, ∀ y ∈ ((fun _ => Page.filled (x + 1) : ℕ → Page) i).bytes, y = x + 1 :=
        fun _ y hy => List.eq_of_mem_replicate hy
      obtain ⟨replies, f, hrun, hcoh⟩ := hcoherent fun _ => Page.filled (x + 1)
      obtain ⟨replies', f', hrun', hreplies⟩ :=
        run_calls (S := fun y => y = x + 1) file hcalls (fun _ => 0) hblocks
      rw [hrun] at hrun'
      cases hrun'
      obtain ⟨page, hpage, hbytes⟩ := hcoh before id after hsplit hfull
      obtain ⟨r, hr, page', rfl, -, hfresh⟩ := hreplies before (.get id) after hsplit
      rw [hpage] at hr
      cases hr
      obtain ⟨y, rfl, hy⟩ := hfresh hle o ho hnone
      have heq : x + 1 = x := by
        rw [hbytes o ho, hx] at hy
        exact (Option.some.inj hy).symm
      exact absurd heq (by simp)

/-- **The page cache is coherent exactly where no page is lost**: for every file and every sequence
of calls, each page that was written in full comes back as it was last written, whatever the kernel
grants and `malloc` hands out, if and only if every such page was counted when the file was opened
or has been written in full since it was flushed. -/
theorem page_cache_coherent_iff (file : Option (List UInt8)) {calls : List PageCall}
    (hcalls : Throughout PageCall.Allowed [] calls) :
    (∀ counts blocks, ∃ replies f,
      runAll DbFile.answerCall calls (DbFile.new file counts blocks) = .ok (replies, f) ∧
        Coherent calls replies) ↔
      Throughout (PageCall.Kept (pagesAtOpen file)) [] calls :=
  ⟨fun h => kept_of_coherent file hcalls (h fun _ => 0), coherent_of_kept file hcalls⟩

/-- Page 0 is written in full, flushed and got again. -/
def flushAndGet : List PageCall :=
  [.get 0, .write 0 0 (List.replicate pageSize 1), .flush 0, .get 0]

lemma flushAndGet_allowed : Throughout PageCall.Allowed [] flushAndGet := by
  refine ⟨?_, ⟨?_, rfl, ?_⟩, ?_, ?_, trivial⟩
  · show 0 < tableMaxPages
    decide
  · decide
  · rw [List.length_replicate, Nat.zero_add]
  · show 0 < tableMaxPages
    decide
  · show 0 < tableMaxPages
    decide

/-- On a file that has the page, it is read back. -/
theorem page_cache_coherent_iff_counted : ∃ replies f,
    runAll DbFile.answerCall flushAndGet (DbFile.new (some (List.replicate pageSize 7))
        (fun _ => 0) fun _ => Page.filled 9) = .ok (replies, f) ∧
      Coherent flushAndGet replies := by
  have hpages : pagesAtOpen (some (List.replicate pageSize 7)) = 1 := by
    rw [pagesAtOpen, Option.getD_some, List.length_replicate]
    rfl
  refine (page_cache_coherent_iff _ flushAndGet_allowed).mpr ?_ (fun _ => 0) fun _ => Page.filled 9
  rw [hpages]
  exact ⟨fun _ => Or.inl Nat.zero_lt_one, trivial, trivial, fun _ => Or.inl Nat.zero_lt_one, trivial⟩

/-- On an empty file the page is lost, although it is in the file when it is got. -/
theorem page_cache_loses_page : Throughout PageCall.Allowed [] flushAndGet ∧
    ¬∀ counts blocks, ∃ replies f,
      runAll DbFile.answerCall flushAndGet (DbFile.new (some []) counts blocks) = .ok (replies, f) ∧
        Coherent flushAndGet replies := by
  refine ⟨flushAndGet_allowed, ?_⟩
  intro h
  obtain ⟨-, -, -, hkept, -⟩ := kept_of_coherent (some []) flushAndGet_allowed (h fun _ => 0)
  have hfull : WrittenInFull 0 ([.get 0, .write 0 0 (List.replicate pageSize 1), .flush 0]) := by
    intro o ho
    simp [lastByte, PageCall.writes, ho]
  rcases hkept hfull with hlt | hheld
  · exact absurd hlt (by decide)
  · exact hheld 0 (by decide) rfl

end DbToy
