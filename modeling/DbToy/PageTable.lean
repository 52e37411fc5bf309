import DbToy.TreeRefinement

/-!
# The page table

`allocate_page` does not look whether the page table has an entry left.  A run stays inside it
exactly if every insertion finds room for the nodes that it splits (`page_table_iff_hasRoom`), and
there are runs that do not (`page_table_overrun`): a tree has at most as many cells as fit its
leaves, so that enough keys need more pages than there are.
-/

namespace DbToy

open SearchTree
open Dictionary (SameLoads)

variable {P : TreeParams} {S₀ : Session}

namespace Dictionary

/-- The pages that an insertion needs: one for each node that is full up from the leaf without a
gap, and one for a new root if these are all nodes on the way. -/
def pagesNeeded (D : Dictionary) (key : UInt32) : ℕ :=
  splits D.params.leafCapacity D.params.innerCapacity key D.tree.height D.tree.tree
    + if Full D.params.leafCapacity D.params.innerCapacity key D.tree.height D.tree.tree
      then 1 else 0

/-- The page table has room for what the call needs. -/
def HasRoom (D : Dictionary) : TreeCall → Prop
  | .insert key _ => key ∉ D.cells.map Prod.fst → D.numPages + D.pagesNeeded key ≤ tableMaxPages
  | _ => True

instance (D : Dictionary) : DecidablePred D.HasRoom
  | .insert _ _ => inferInstanceAs (Decidable (_ → _))
  | .find _ => isTrue trivial
  | .select _ _ => isTrue trivial
  | .getRootPage => isTrue trivial
  | .getTotalPage => isTrue trivial
  | .reopen _ _ _ _ => isTrue trivial

lemma put_numPages (D : Dictionary) (c : UInt32 × Row) :
    (D.put c).numPages = D.numPages + D.pagesNeeded c.1 := by
  rw [pagesNeeded, ← Nat.add_assoc]
  exact Rooted.insert_snd c D.numPages D.tree

/-- A call is answered exactly if there is room. -/
lemma answer_of_hasRoom {D : Dictionary} {c : TreeCall} (h : D.HasRoom c) :
    ∃ r D', D.answer c = .ok (r, D') := by
  cases c with
  | insert key row =>
      rw [answer]
      by_cases hmem : key ∈ D.cells.map Prod.fst
      · exact ⟨_, D, if_pos hmem⟩
      · rw [if_neg hmem, if_pos ((D.put_numPages (key, row)).trans_le (h hmem))]
        exact ⟨_, _, rfl⟩
  | find key => exact ⟨_, D, rfl⟩
  | select minVal maxVal => exact ⟨_, D, rfl⟩
  | getRootPage => exact ⟨_, D, rfl⟩
  | getTotalPage => exact ⟨_, D, rfl⟩
  | reopen leafLoad innerNodeLoad counts malloc => exact ⟨_, _, rfl⟩

lemma answer_of_not_hasRoom {D : Dictionary} {c : TreeCall} (h : ¬D.HasRoom c) :
    D.answer c = .error (.pageIndex tableMaxPages) := by
  cases c with
  | insert key row =>
      obtain ⟨hmem, hroom⟩ := Classical.not_imp.mp h
      rw [answer, if_neg hmem, if_neg fun hle => hroom ((D.put_numPages (key, row)).symm.trans_le hle)]
  | find key => exact absurd trivial h
  | select minVal maxVal => exact absurd trivial h
  | getRootPage => exact absurd trivial h
  | getTotalPage => exact absurd trivial h
  | reopen leafLoad innerNodeLoad counts malloc => exact absurd trivial h

end Dictionary

namespace Session

/-- The page table has room for what the call needs, in the tree that the pages store. -/
def HasRoom (S : Session) (c : TreeCall) : Prop := ∀ D, S.Mirrors D → D.HasRoom c

/-- A call without room is refused, and the tree remains. -/
def Refuses (S : Session) (c : TreeCall) : Prop :=
  ∀ D, S.Mirrors D → ¬D.HasRoom c →
    ∃ r S', S.answer c = .ok (r, S') ∧ r ≠ .status .success ∧ S'.Mirrors D

/-- The state of a session whose loads never change. -/
def Steady (P : TreeParams) (S : Session) : Prop := ∃ D, S.Mirrors D ∧ D.Steady P

variable {S S' : Session} {c : TreeCall}

lemma Steady.answer (h : S.Steady P) (hc : SameLoads P c) {r : TreeReply}
    (hanswer : S.answer c = .ok (r, S')) : S'.Steady P := by
  obtain ⟨D, hmirrors, hsteady⟩ := h
  have hagree := hmirrors.answer (hsteady.admits hc)
  rw [hanswer] at hagree
  obtain ⟨D', hD', hmirrors'⟩ := hagree.exists_ok'
  exact ⟨D', hmirrors', hsteady.answer hc hD'⟩

lemma Steady.hasRoom_or_error (h : S.Steady P) (hc : SameLoads P c) :
    S.HasRoom c ∨ S.answer c = .error (.pageIndex tableMaxPages) := by
  obtain ⟨D, hmirrors, hsteady⟩ := h
  have hagree := hmirrors.answer (hsteady.admits hc)
  by_cases hroom : D.HasRoom c
  · exact Or.inl fun D' hD' => hmirrors.unique hD' ▸ hroom
  · rw [Dictionary.answer_of_not_hasRoom hroom] at hagree
    exact Or.inr hagree.eq_error

lemma Steady.answer_ok (h : S.Steady P) (hc : SameLoads P c) (hroom : S.HasRoom c) :
    ∃ r S', S.answer c = .ok (r, S') ∧ S'.Steady P := by
  obtain ⟨D, hmirrors, hsteady⟩ := h
  have hagree := hmirrors.answer (hsteady.admits hc)
  obtain ⟨r, D', hD'⟩ := Dictionary.answer_of_hasRoom (hroom D hmirrors)
  rw [hD'] at hagree
  obtain ⟨S', hS', hmirrors'⟩ := hagree.exists_ok
  exact ⟨r, S', hS', D', hmirrors', hsteady.answer hc hD'⟩

end Session

/-- **The page table is safe exactly as long as there is room**: a run never uses an index outside
of it, and refuses insertions that would need one, if and only if every insertion finds room. -/
theorem page_table_iff_hasRoom (hP : P.Valid) {file : Option (List UInt8)} {counts : ℕ → ℕ}
    {malloc : ℕ → Page} (hcreate : Session.create P file counts malloc = .ok S₀)
    {calls : List TreeCall} (hcalls : ∀ c ∈ calls, SameLoads P c) :
    ((∀ i, S₀.runCalls calls ≠ .error (.pageIndex i)) ∧
        Runs.Along Session.answer Session.Refuses calls S₀) ↔
      Runs.Along Session.answer Session.HasRoom calls S₀ := by
  have hsteady : S₀.Steady P :=
    ⟨_, mirrors_of_create hP hcreate, Dictionary.create_steady hP⟩
  constructor
  · rintro ⟨hpages, -⟩
    exact Runs.along_of_ne_error (fun c S hS hc => ⟨hS.hasRoom_or_error hc, fun _ _ => hS.answer hc⟩)
      hsteady hcalls (hpages tableMaxPages)
  · intro hroom
    refine ⟨?_, hroom.mono fun S c hS D hD hno => absurd (hS D hD) hno⟩
    intro i
    obtain ⟨replies, S, hrun, -⟩ := Runs.runAll_of_along
      (fun c S hS hc => Session.Steady.answer_ok hS hc.2 hc.1) hsteady (hroom.and_allowed hcalls)
    rw [Session.runCalls, hrun]
    exact fun h => nomatch h

/-- The small session finds room for every insertion, and so it stays inside the table: it needs
three pages, a leaf, the right half of it, and a root above them. -/
theorem page_table_iff_hasRoom_small : ∃ S₀,
    Session.create smallParams none (fun _ => 0) (fun _ => Page.filled 7) = .ok S₀ ∧
      Runs.Along Session.answer Session.HasRoom smallCalls S₀ ∧
      (∀ i, S₀.runCalls smallCalls ≠ .error (.pageIndex i)) ∧
        Runs.Along Session.answer Session.Refuses smallCalls S₀ := by
  obtain ⟨S₀, hcreate, hmirrors⟩ := Session.create_mirrors smallParams_valid none (fun _ => 0)
    fun _ => Page.filled 7
  have hadmits := admitsAll_of_sameLoads smallParams_valid smallCalls_sameLoads
  have hroom : Runs.Along Session.answer Session.HasRoom smallCalls S₀ :=
    Session.along_of_dictionary hmirrors hadmits (by decide)
  exact ⟨S₀, hcreate, hroom,
    (page_table_iff_hasRoom smallParams_valid hcreate smallCalls_sameLoads).mpr hroom⟩

/-! ## Runs that leave the table -/

/-- **More keys than fit the leaves overrun the page table.** -/
theorem runCalls_overrun (hP : P.Valid) (hmirrors : S₀.Mirrors (.create P))
    {calls : List TreeCall} (hcalls : ∀ c ∈ calls, SameLoads P c)
    (hnodup : ((rowsOf calls).map Prod.fst).Nodup)
    (hmany : P.leafCapacity * tableMaxPages < (rowsOf calls).length) :
    S₀.runCalls calls = .error (.pageIndex tableMaxPages) := by
  have hsteady := Dictionary.create_steady hP
  rcases Session.runCalls_outcome hmirrors (hsteady.admitsAll hcalls) with
    ⟨_, S, D, -, hD, hS, hwf, hkeeps, -⟩ | ⟨hS, -⟩
  · obtain ⟨s, hs⟩ := hS
    have hfilled := (hsteady.runCalls hcalls hD).filled.length_cells_le
    have hpages : (pids D.tree.height D.tree.tree).length = D.numPages := by
      rw [hwf.sound.pids.length_eq, List.length_range]
    have hmax : D.numPages ≤ tableMaxPages := hs.numPages ▸ hs.stores.numPages_le
    have hcells : D.cells.length ≤ P.leafCapacity * tableMaxPages := by
      rw [hpages] at hfilled
      exact hfilled.trans (Nat.mul_le_mul_left _ hmax)
    have hrows := hkeeps.length_le hnodup
    omega
  · exact hS

/-- Insertions of the keys from 0 on. -/
def ascending (n : ℕ) : List TreeCall := (List.range n).map fun i => .insert (UInt32.ofNat i) [0]

lemma rowsOf_ascending (n : ℕ) :
    rowsOf (ascending n) = (List.range n).map fun i => (UInt32.ofNat i, [0]) := by
  rw [rowsOf, ascending, List.flatMap_map, List.map_eq_flatMap]
  rfl

theorem page_table_overrun : ∃ S₀,
    Session.create smallParams none (fun _ => 0) (fun _ => Page.filled 7) = .ok S₀ ∧
      (∀ c ∈ ascending 2001, SameLoads smallParams c) ∧
      S₀.runCalls (ascending 2001) = .error (.pageIndex tableMaxPages) := by
  obtain ⟨S₀, hcreate, hmirrors⟩ := Session.create_mirrors smallParams_valid none (fun _ => 0)
    fun _ => Page.filled 7
  have hcalls : ∀ c ∈ ascending 2001, SameLoads smallParams c := by
    intro c hc
    obtain ⟨i, -, rfl⟩ := List.mem_map.mp hc
    rfl
  refine ⟨S₀, hcreate, hcalls, runCalls_overrun smallParams_valid hmirrors hcalls ?_ ?_⟩
  · rw [rowsOf_ascending, List.map_map]
    refine List.Nodup.map_on ?_ List.nodup_range
    intro i hi j hj heq
    have hnat := congrArg UInt32.toNat (show UInt32.ofNat i = UInt32.ofNat j from heq)
    have hsize : UInt32.size = 2 ^ 32 := rfl
    have hi' := List.mem_range.mp hi
    have hj' := List.mem_range.mp hj
    rwa [UInt32.toNat_ofNat_of_lt' (by omega), UInt32.toNat_ofNat_of_lt' (by omega)] at hnat
  · rw [rowsOf_ascending, List.length_map, List.length_range]
    decide

end DbToy
