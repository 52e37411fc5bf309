import DbToy.PageTable

/-!
# The root flag

`update_root` sets the flag of the new root and clears that of the old one.  Nothing else writes
it: the right half of a split starts with whatever byte `malloc` left there.

The flag marks exactly the root in every run in which `malloc` hands out a zero flag for the right
halves (`root_flag_of_clean`).  It does not in every run (`root_flag_wrong`).
-/

namespace DbToy

open SearchTree
open Dictionary (SameLoads)

variable {P : TreeParams} {S₀ : Session}

/-- The flag marks exactly the root. -/
def TreeImage.FlagsRoot (s : TreeImage) : Prop :=
  ∀ id < s.map.numPages, (s.map.content id).isRoot = true ↔ id = s.map.rootPid

/-- What the tree object sees: `is_root()` of the page that `get_page` gives. -/
def BPlusTree.FlagsRoot (t : BPlusTree) : Prop :=
  ∀ id < t.pager.numPages, ∃ page pager, t.pager.getPage t.malloc id = .ok (page, pager) ∧
    (page.isRoot = true ↔ id = t.pager.getRootPage)

lemma BPlusTree.Represents.flagsRoot {t : BPlusTree} {s : TreeImage} (h : t.Represents s)
    (hs : s.FlagsRoot) : t.FlagsRoot := by
  intro id hid
  rw [h.pager.numPages_eq] at hid
  have hpid := BPlusTree.pageId_of_lt_tableMaxPages hid h.pager.numPages_le
  have hlt : pageId id < s.map.numPages := hpid.symm ▸ hid
  obtain ⟨pager, hpager, -, -⟩ := @BTreePager.getPage_represents t.malloc _ _ h.pager id hlt
  rw [hpid] at hpager
  exact ⟨_, pager, hpager, by rw [h.pager.getRootPage_eq]; exact hs id hid⟩

/-- Conversely the flags are right in the pages that the tree represents. -/
lemma BPlusTree.Represents.flagsRoot_image {t : BPlusTree} {s : TreeImage} (h : t.Represents s)
    (ht : t.FlagsRoot) : s.FlagsRoot := by
  intro id hid
  have hpid := BPlusTree.pageId_of_lt_tableMaxPages hid h.pager.numPages_le
  have hlt : pageId id < s.map.numPages := hpid.symm ▸ hid
  obtain ⟨page, pager, hget, hiff⟩ := ht id (h.pager.numPages_eq ▸ hid)
  obtain ⟨pager', hpager, -, -⟩ := @BTreePager.getPage_represents t.malloc _ _ h.pager id hlt
  cases hget.symm.trans hpager
  rwa [hpid, h.pager.getRootPage_eq] at hiff

namespace Session

/-- The pages that the call's splits take for right halves come with a zero flag. -/
def Clean (S : Session) : TreeCall → Prop
  | .insert key _ => ∀ D, S.Mirrors D → key ∉ D.cells.map Prod.fst →
      ∀ id, D.numPages ≤ id → id < D.numPages + splits D.params.leafCapacity
        D.params.innerCapacity key D.tree.height D.tree.tree → (S.tree.malloc id).isRoot = false
  | _ => True

end Session

/-- **An insertion keeps the flag right exactly if the right halves come with a zero flag.** -/
theorem Inserts.flagsRoot {s s' : TreeImage} {c : UInt32 × Row} {R : Rooted UInt32 Row}
    (hP : P.Valid) (hstores : s.Stores P.rowSize R.height R.tree) (hs : s.FlagsRoot)
    (hne : c.1 ∉ R.cells.map Prod.fst) (h : Inserts P s s' c R) :
    s'.FlagsRoot ↔ ∀ id, s.map.numPages ≤ id →
      id < s.map.numPages + splits P.leafCapacity P.innerCapacity c.1 R.height R.tree →
        (s.malloc id).isRoot = false := by
  obtain ⟨hL, hL'⟩ := hP.leafCapacity_even
  obtain ⟨hI, hI'⟩ := hP.innerCapacity_even
  have hnum := h.numPages
  have hroot := h.stores.rootPid
  have htop : pid R.height R.tree < s.map.numPages := hstores.lt_numPages _ (pid_mem_pids _ _)
  rw [Rooted.insert_snd] at hnum
  rw [Rooted.pid_insert (by omega) (by omega) hstores.sound fun d hd heq =>
    hne (List.mem_map.mpr ⟨d, hd, heq⟩)] at hroot
  -- the pages behind the old ones are the right halves and, if there is a new root, the last one
  have hnew : ∀ id, s.map.numPages ≤ id →
      (id < s'.map.numPages ∧ id ≠ s'.map.rootPid ↔ id < s.map.numPages
        + splits P.leafCapacity P.innerCapacity c.1 R.height R.tree) := by
    intro id hge
    split_ifs at hnum hroot <;> omega
  constructor
  · intro hflags id hge hlt
    obtain ⟨hlt', hid⟩ := (hnew id hge).mpr hlt
    rw [← h.isRoot_new id hge hlt' hid]
    exact eq_false_of_ne_true ((hflags id hlt').not.mpr hid)
  · intro hclean id hid
    by_cases hrootid : id = s'.map.rootPid
    · refine iff_of_true ?_ hrootid
      rw [hrootid, h.stores.rootPid]
      exact h.stores.isRoot
    · refine iff_of_false ?_ hrootid
      intro htrue
      rcases Nat.lt_or_ge id s.map.numPages with hlt | hge
      · rw [h.isRoot_old id hlt hrootid, Bool.and_eq_true, bne_iff_ne] at htrue
        exact htrue.1 ((hs id hlt).mp htrue.2)
      · rw [h.isRoot_new id hge hid hrootid, hclean id hge ((hnew id hge).mp ⟨hid, hrootid⟩)] at htrue
        exact absurd htrue (by decide)

namespace Session

/-- A session whose root flag is right. -/
def Flagged (P : TreeParams) (S : Session) : Prop :=
  ∃ s D, S.Simulates s D ∧ D.Steady P ∧ s.FlagsRoot

variable {S S' : Session}

/-- A new tree has one page, the root. -/
lemma Mirrors.flagged (hP : P.Valid) (h : S.Mirrors (.create P)) : S.Flagged P := by
  obtain ⟨s, hs⟩ := h
  refine ⟨s, _, hs, Dictionary.create_steady hP, ?_⟩
  intro id hid
  have hnum : s.map.numPages = 1 := hs.numPages
  have hroot : s.map.rootPid = 0 := hs.stores.rootPid
  obtain rfl : id = 0 := by omega
  exact iff_of_true hs.stores.isRoot hroot.symm

lemma Flagged.answer (h : S.Flagged P) {c : TreeCall} {r : TreeReply}
    (hc : SameLoads P c) (hclean : S.Clean c) (hanswer : S.answer c = .ok (r, S')) :
    S'.Flagged P := by
  obtain ⟨s, D, hsim, hsteady, hflags⟩ := h
  rcases answer_simulates hsim (hsteady.admits hc) with
    ⟨r', S₁, s', D', hS, hD, hsim', hmoves⟩ | ⟨hS, -⟩
  · cases hS.symm.trans hanswer
    refine ⟨s', D', hsim', hsteady.answer hc hD, ?_⟩
    rcases hmoves.cases with ⟨key, row, rfl, rfl, hins⟩ | hmap
    · have hnew : key ∉ D.cells.map Prod.fst := by
        intro hmem
        rw [Dictionary.answer, if_pos hmem] at hD
        cases hD
      rw [hins.flagsRoot hsim.valid hsim.stores hflags hnew]
      intro id hge hlt
      rw [← hsim.represents.malloc]
      rw [hsim.numPages] at hge hlt
      exact hclean D ⟨s, hsim⟩ hnew id hge hlt
    · intro id hid
      rw [hmap] at hid ⊢
      exact hflags id hid
  · cases hS.symm.trans hanswer

end Session

/-- What `malloc` hands out after the call, if that changes, has a zero flag byte. -/
def TreeCall.ZeroFlags : TreeCall → Prop
  | .reopen _ _ _ malloc => ∀ id, (malloc id).isRoot = false
  | _ => True

lemma BPlusTree.new_malloc {file : Option (List UInt8)} {mode : Char} {counts : ℕ → ℕ}
    {malloc : ℕ → Page} {t : BPlusTree} (h : BPlusTree.new P file mode counts malloc = .ok t) :
    t.malloc = malloc := by
  obtain ⟨pager, -, h⟩ := bind_eq_ok h
  obtain ⟨⟨u, t'⟩, hinit, h⟩ := bind_eq_ok h
  cases h
  exact BPlusTree.run_malloc _ hinit

/-- Zero flags stay what `malloc` hands out. -/
lemma Session.answer_zeroFlags {S S' : Session} {c : TreeCall} {r : TreeReply}
    (hS : ∀ id, (S.tree.malloc id).isRoot = false) (hc : c.ZeroFlags)
    (h : S.answer c = .ok (r, S')) : ∀ id, (S'.tree.malloc id).isRoot = false := by
  have hcall : ∀ {α : Type} (p : PageM α) (reply : α → TreeReply),
      S.call p reply = .ok (r, S') → ∀ id, (S'.tree.malloc id).isRoot = false := by
    intro α p reply h
    obtain ⟨⟨a, t⟩, ht, h⟩ := bind_eq_ok h
    cases h
    show ∀ id, (t.malloc id).isRoot = false
    rw [BPlusTree.run_malloc p ht]
    exact hS
  cases c with
  | insert key row => exact hcall _ _ h
  | find key => exact hcall (BPlusTree.findRow S.params.rowSize key) (fun r => .location r.1 r.2) h
  | select minVal maxVal => exact hcall _ _ h
  | getRootPage => exact hcall _ _ h
  | getTotalPage => exact hcall _ _ h
  | reopen leafLoad innerNodeLoad counts malloc =>
      obtain ⟨file, -, h⟩ := bind_eq_ok h
      obtain ⟨t, ht, h⟩ := bind_eq_ok h
      cases h
      show ∀ id, (t.malloc id).isRoot = false
      rw [BPlusTree.new_malloc ht]
      exact hc

/-- Blocks whose flag byte is zero are clean. -/
lemma Session.along_clean {S : Session} (hmalloc : ∀ id, (S.tree.malloc id).isRoot = false)
    {calls : List TreeCall} (hcalls : ∀ c ∈ calls, c.ZeroFlags) :
    Runs.Along Session.answer Session.Clean calls S := by
  refine @Runs.along_of_invariant _ _ _ _ Session.answer
    (fun S => ∀ id, (S.tree.malloc id).isRoot = false) TreeCall.ZeroFlags Session.Clean
    (fun c S hS hc => ⟨?_, fun r S' h => answer_zeroFlags hS hc h⟩) calls S hmalloc hcalls
  cases c with
  | insert key row => exact fun _ _ _ id _ _ => hS id
  | find key => trivial
  | select minVal maxVal => trivial
  | getRootPage => trivial
  | getTotalPage => trivial
  | reopen leafLoad innerNodeLoad counts malloc => trivial

/-- **The flag marks exactly the root** in every state that a run reaches whose splits take blocks
with a zero flag for right halves. -/
theorem root_flag_of_clean (hP : P.Valid) {file : Option (List UInt8)} {counts : ℕ → ℕ}
    {malloc : ℕ → Page} (hcreate : Session.create P file counts malloc = .ok S₀)
    {calls : List TreeCall} (hcalls : ∀ c ∈ calls, SameLoads P c)
    (hclean : Runs.Along Session.answer Session.Clean calls S₀) {replies : List TreeReply}
    {S : Session} (hrun : S₀.runCalls calls = .ok (replies, S)) : S.tree.FlagsRoot := by
  have hstart := (mirrors_of_create hP hcreate).flagged hP
  obtain ⟨s, D, hsim, -, hflags⟩ := Runs.runAll_preserves
    (fun c S r S' hS hc h => Session.Flagged.answer hS hc.2 hc.1 h) hstart
    (hclean.and_allowed hcalls) hrun
  exact hsim.represents.flagsRoot hflags

theorem root_flag_of_clean_small : ∃ S₀ replies S,
    Session.create smallParams none (fun _ => 0) (fun _ => Page.filled 0) = .ok S₀ ∧
      S₀.runCalls [.insert 1 [1], .insert 2 [2], .insert 3 [3]] = .ok (replies, S) ∧
      S.tree.FlagsRoot := by
  have hcalls : ∀ c ∈ [TreeCall.insert 1 [1], .insert 2 [2], .insert 3 [3]],
      SameLoads smallParams c := by simp [SameLoads, smallParams]
  obtain ⟨t, s, hnew, hrep, hstores, hnum, hmalloc⟩ :=
    BPlusTree.new_create smallParams_valid none (fun _ => 0) fun _ => Page.filled 0
  have hcreate : Session.create smallParams none (fun _ => 0) (fun _ => Page.filled 0)
      = .ok ⟨smallParams, t⟩ := by rw [Session.create, hnew, ok_bind]
  have hzero : ∀ id, (t.malloc id).isRoot = false := by
    intro id
    rw [hrep.malloc, hmalloc]
    show (Page.filled 0).isRoot = false
    decide
  have hmirrors := mirrors_of_create smallParams_valid hcreate
  have hadmits := admitsAll_of_sameLoads smallParams_valid hcalls
  have hclean := @Session.along_clean ⟨smallParams, t⟩ hzero
    [.insert 1 [1], .insert 2 [2], .insert 3 [3]] (by simp [TreeCall.ZeroFlags])
  rcases Session.runCalls_outcome hmirrors hadmits with ⟨replies, S, -, hS, -⟩ | ⟨hS, -⟩
  · exact ⟨_, replies, S, hcreate, hS,
      root_flag_of_clean smallParams_valid hcreate hcalls hclean hS⟩
  · exact absurd hS (runCalls_ne_pageIndex hmirrors hadmits (by decide) _)

/-! ## A wrong flag -/

/-- An insertion that the dictionary answers with success. -/
lemma Session.Simulates.insert_new {S : Session} {s : TreeImage} {D D' : Dictionary}
    (h : S.Simulates s D) {key : UInt32} {row : Row} (hc : D.Admits (.insert key row))
    (hD : D.answer (.insert key row) = .ok (.status .success, D')) :
    ∃ S' s', S.answer (.insert key row) = .ok (.status .success, S') ∧ S'.Simulates s' D' ∧
      Inserts D.params s s' (key, row) D.tree := by
  rcases h.insert hc with ⟨r, S', s', D₁, hS, hD₁, hsim, hmoves⟩ | ⟨-, hD₁⟩
  · cases hD.symm.trans hD₁
    exact ⟨S', s', hS, hsim, hmoves⟩
  · exact nomatch hD.symm.trans hD₁

/-- The third key splits the leaf; page 1 is the right half, and page 2 the new root. -/
theorem root_flag_wrong : ∃ S₀ replies S page pager,
    Session.create smallParams none (fun _ => 0) (fun _ => Page.filled 1) = .ok S₀ ∧
      S₀.runCalls [.insert 1 [1], .insert 2 [2], .insert 3 [3]] = .ok (replies, S) ∧
      S.tree.pager.getPage S.tree.malloc 1 = .ok (page, pager) ∧ page.isRoot = true ∧
      S.tree.pager.getRootPage = 2 := by
  obtain ⟨t, s₀, hnew, hrep, hstores, hnum, hmalloc⟩ :=
    BPlusTree.new_create smallParams_valid none (fun _ => 0) fun _ => Page.filled 1
  have hsim : Session.Simulates ⟨smallParams, t⟩ s₀ (.create smallParams) :=
    ⟨rfl, smallParams_valid, hrep, hstores, hnum⟩
  have hD₁ : (Dictionary.create smallParams).answer (.insert 1 [1])
      = .ok (.status .success, ⟨smallParams, ⟨0, Leaf.mk 0 [(1, [1])]⟩, 1⟩) := rfl
  have hD₂ : Dictionary.answer (.insert 2 [2]) ⟨smallParams, ⟨0, Leaf.mk 0 [(1, [1])]⟩, 1⟩
      = .ok (.status .success, ⟨smallParams, ⟨0, Leaf.mk 0 [(1, [1]), (2, [2])]⟩, 1⟩) := rfl
  have hD₃ : Dictionary.answer (.insert 3 [3])
      ⟨smallParams, ⟨0, Leaf.mk 0 [(1, [1]), (2, [2])]⟩, 1⟩
      = .ok (.status .success, ⟨smallParams, ⟨1, SearchTree.Inner.mk 2 (.cons (Leaf.mk 0 [(1, [1]), (2, [2])])
          2 (.one (Leaf.mk 1 [(3, [3])])))⟩, 3⟩) := rfl
  obtain ⟨S₁, s₁, hS₁, hsim₁, hins₁⟩ := hsim.insert_new (by decide) hD₁
  obtain ⟨S₂, s₂, hS₂, hsim₂, hins₂⟩ := hsim₁.insert_new (by decide) hD₂
  obtain ⟨S₃, s₃, hS₃, hsim₃, hins₃⟩ := hsim₂.insert_new (by decide) hD₃
  have hroot : s₃.map.rootPid = 2 := hsim₃.stores.rootPid
  have hnum₂ : s₂.map.numPages = 1 := hsim₂.numPages
  have hnum₃ : s₃.map.numPages = 3 := hsim₃.numPages
  have hflag : (s₃.map.content 1).isRoot = true := by
    rw [hins₃.isRoot_new 1 (by omega) (by omega) (by omega), hins₂.malloc, hins₁.malloc, hmalloc]
    decide
  have hpager := hsim₃.represents.pager
  have hpid : pageId 1 = 1 := by decide
  have hlt : pageId 1 < s₃.map.numPages := by omega
  obtain ⟨pager, hget, -, -⟩ := @BTreePager.getPage_represents S₃.tree.malloc _ _ hpager 1 hlt
  rw [hpid] at hget
  refine ⟨⟨smallParams, t⟩, [.status .success, .status .success, .status .success], S₃, _, pager,
    ?_, ?_, hget, hflag, ?_⟩
  · rw [Session.create, hnew, ok_bind]
  · rw [Session.runCalls, Runs.runAll_cons_of_ok hS₁, Runs.runAll_cons_of_ok hS₂,
      Runs.runAll_cons_of_ok hS₃]
    rfl
  · rw [hpager.getRootPage_eq, hroot]

end DbToy
