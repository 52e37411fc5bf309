import DbToy.Sessions
import DbToy.TreeOpen

/-!
# Dictionaries

What a session with a tree amounts to when pages are left out: `Dictionary` is a rooted search tree
with the loads that are in force and the number of its nodes, and `Dictionary.answer` answers the
calls of a session from it.  A dictionary runs out of pages where the pager does.

* `Dictionary.Admits`: what a call must respect for the tree object to keep up with the dictionary.
* `Steady`: the state of a dictionary whose loads never change.  Every call meets `Admits` there
  (`Steady.admitsAll`).
-/

namespace DbToy

open SearchTree

structure Dictionary where
  params : TreeParams
  tree : Rooted UInt32 Row
  numPages : ℕ

namespace Dictionary

def create (P : TreeParams) : Dictionary := ⟨P, emptyTree, 1⟩

def cells (D : Dictionary) : List (UInt32 × Row) := D.tree.cells

/-- The dictionary with one cell more, however many pages that takes. -/
def put (D : Dictionary) (c : UInt32 × Row) : Dictionary :=
  let r := D.tree.insert D.params.leafCapacity D.params.innerCapacity c D.numPages
  { D with tree := r.1, numPages := r.2 }

def withLoads (D : Dictionary) (leafLoad innerNodeLoad : ℕ) : Dictionary :=
  { D with params := { D.params with leafLoad := leafLoad, innerNodeLoad := innerNodeLoad } }

def answer : TreeCall → Dictionary → Except Fault (TreeReply × Dictionary)
  | .insert key row, D =>
      if key ∈ D.cells.map Prod.fst then .ok (.status .failDuplicateKey, D)
      else if (D.put (key, row)).numPages ≤ tableMaxPages then
        .ok (.status .success, D.put (key, row))
      else .error (.pageIndex tableMaxPages)
  | .find key, D =>
      .ok (.location (locate key D.tree.height D.tree.tree) (lookup key D.cells), D)
  | .select minVal maxVal, D => .ok (.rows (D.cells.filter (inRange minVal maxVal)), D)
  | .getRootPage, D => .ok (.number (pid D.tree.height D.tree.tree), D)
  | .getTotalPage, D => .ok (.number D.numPages, D)
  | .reopen leafLoad innerNodeLoad _ _, D => .ok (.reopened, D.withLoads leafLoad innerNodeLoad)

def runCalls : List TreeCall → Dictionary → Except Fault (List TreeReply × Dictionary) :=
  Runs.runAll answer

/-! ## Invariants -/

/-- The loads are in order and so is the tree. -/
structure WF (D : Dictionary) : Prop where
  valid : D.params.Valid
  sound : Sound D.numPages D.tree.height D.tree.tree

/-- What a call has to respect: rows are of the size of the table, a new key meets no node that is
fuller than the loads in force allow, and loads are even and positive. -/
def Admits (D : Dictionary) : TreeCall → Prop
  | .insert key row => row.length = D.params.rowSize ∧
      (key ∉ D.cells.map Prod.fst →
        Fits D.params.leafCapacity D.params.innerCapacity key D.tree.height D.tree.tree)
  | .reopen leafLoad innerNodeLoad _ _ =>
      (leafLoad % 2 = 0 ∧ 0 < leafLoad) ∧ innerNodeLoad % 2 = 0 ∧ 0 < innerNodeLoad
  | _ => True

instance (D : Dictionary) : DecidablePred D.Admits
  | .insert _ _ => inferInstanceAs (Decidable (_ ∧ (_ → _)))
  | .reopen _ _ _ _ => inferInstanceAs (Decidable (_ ∧ _))
  | .find _ => isTrue trivial
  | .select _ _ => isTrue trivial
  | .getRootPage => isTrue trivial
  | .getTotalPage => isTrue trivial

/-- Every call of a run respects it where it is made. -/
def AdmitsAll (D : Dictionary) (calls : List TreeCall) : Prop := Runs.Along answer Admits calls D

instance (D : Dictionary) (calls : List TreeCall) : Decidable (D.AdmitsAll calls) :=
  Runs.Along.decidable calls D

variable {D D' : Dictionary}

lemma create_wf {P : TreeParams} (hP : P.Valid) : (create P).WF :=
  ⟨hP, List.Perm.refl _, trivial, fun h => absurd rfl h, List.Pairwise.nil⟩

lemma WF.sorted (hD : D.WF) : Sorted D.cells := hD.sound.sorted

lemma WF.put (hD : D.WF) {c : UInt32 × Row} (hc : c.1 ∉ D.cells.map Prod.fst) :
    (D.put c).WF ∧ (D.put c).cells = putCell c D.cells := by
  obtain ⟨hL, hL'⟩ := hD.valid.leafCapacity_even
  obtain ⟨hI, hI'⟩ := hD.valid.innerCapacity_even
  have hne : ∀ d ∈ D.tree.cells, d.1 ≠ c.1 := fun d hd heq =>
    hc (List.mem_map.mpr ⟨d, hd, heq⟩)
  obtain ⟨hsound, hcells⟩ := @Rooted.insert_sound _ _ _ D.params.leafCapacity
    D.params.innerCapacity c D.tree D.numPages (by omega) (by omega) hD.sound hne
  exact ⟨⟨hD.valid, hsound⟩, hcells⟩

/-- A new cell makes another dictionary. -/
lemma WF.put_ne (hD : D.WF) {c : UInt32 × Row} (hc : c.1 ∉ D.cells.map Prod.fst) :
    D.put c ≠ D := by
  intro heq
  have hcells := (hD.put hc).2
  rw [heq] at hcells
  have hlen := length_putCell c D.cells
  rw [← hcells] at hlen
  omega

/-- The calls that change a dictionary: new cells and new loads. -/
lemma answer_cases {c : TreeCall} {r : TreeReply} (h : answer c D = .ok (r, D')) :
    (∃ key row, c = .insert key row ∧ key ∉ D.cells.map Prod.fst ∧
        (D.put (key, row)).numPages ≤ tableMaxPages ∧ r = .status .success ∧
        D' = D.put (key, row)) ∨
      (∃ leafLoad innerNodeLoad counts malloc, c = .reopen leafLoad innerNodeLoad counts malloc ∧
        D' = D.withLoads leafLoad innerNodeLoad) ∨
      D' = D ∧ ∀ key row, c = .insert key row → key ∈ D.cells.map Prod.fst ∧
        r = .status .failDuplicateKey := by
  cases c with
  | insert key row =>
      simp only [answer] at h
      split_ifs at h with hmem hroom
      · cases h
        refine Or.inr (Or.inr ⟨rfl, ?_⟩)
        intro key' row' heq
        cases heq
        exact ⟨hmem, rfl⟩
      · cases h
        exact Or.inl ⟨key, row, rfl, hmem, hroom, rfl, rfl⟩
  | reopen leafLoad innerNodeLoad counts malloc =>
      cases h
      exact Or.inr (Or.inl ⟨leafLoad, innerNodeLoad, counts, malloc, rfl, rfl⟩)
  | find key => cases h; exact Or.inr (Or.inr ⟨rfl, fun _ _ heq => nomatch heq⟩)
  | select minVal maxVal => cases h; exact Or.inr (Or.inr ⟨rfl, fun _ _ heq => nomatch heq⟩)
  | getRootPage => cases h; exact Or.inr (Or.inr ⟨rfl, fun _ _ heq => nomatch heq⟩)
  | getTotalPage => cases h; exact Or.inr (Or.inr ⟨rfl, fun _ _ heq => nomatch heq⟩)

/-- One call keeps a dictionary in order. -/
lemma WF.answer (hD : D.WF) {c : TreeCall} {r : TreeReply} (hc : D.Admits c)
    (h : answer c D = .ok (r, D')) : D'.WF := by
  rcases answer_cases h with ⟨key, row, rfl, hne, -, -, rfl⟩ | ⟨_, _, _, _, rfl, rfl⟩ | ⟨rfl, -⟩
  · exact (hD.put hne).1
  · exact ⟨⟨hD.valid.two_cells, hc.1, hc.2⟩, hD.sound⟩
  · exact hD

/-- Only the page table can fail. -/
lemma answer_eq_error {c : TreeCall} {e : Fault} (h : answer c D = .error e) :
    e = .pageIndex tableMaxPages := by
  cases c with
  | insert key row =>
      simp only [answer] at h
      split_ifs at h
      exact (Except.error.inj h).symm
  | find key => exact nomatch h
  | select minVal maxVal => exact nomatch h
  | getRootPage => exact nomatch h
  | getTotalPage => exact nomatch h
  | reopen leafLoad innerNodeLoad counts malloc => exact nomatch h

/-! ## Loads that stay the same -/

/-- A dictionary that has had these loads all the time: every node but the root is half full. -/
structure Steady (P : TreeParams) (D : Dictionary) : Prop where
  wf : D.WF
  params_eq : D.params = P
  filled : RootFilled P.leafCapacity P.innerCapacity D.tree.height D.tree.tree

lemma create_steady {P : TreeParams} (hP : P.Valid) : Steady P (create P) :=
  ⟨create_wf hP, rfl, Nat.zero_le _⟩

variable {P : TreeParams}

lemma Steady.put (hD : Steady P D) {c : UInt32 × Row} (hc : c.1 ∉ D.cells.map Prod.fst) :
    Steady P (D.put c) := by
  obtain ⟨hwf, rfl, hfilled⟩ := hD
  exact ⟨(hwf.put hc).1, rfl, Rooted.insert_rootFilled hwf.valid.leafCapacity_even.2
    hwf.valid.innerCapacity_even.2 c D.numPages hfilled⟩

/-- The calls of a client that opens the file with the loads of before. -/
def SameLoads (P : TreeParams) : TreeCall → Prop
  | .insert _ row => row.length = P.rowSize
  | .reopen leafLoad innerNodeLoad _ _ => leafLoad = P.leafLoad ∧ innerNodeLoad = P.innerNodeLoad
  | _ => True

lemma Steady.withLoads (hD : Steady P D) : D.withLoads P.leafLoad P.innerNodeLoad = D := by
  obtain ⟨-, rfl, -⟩ := hD
  rfl

lemma Steady.admits (hD : Steady P D) {c : TreeCall} (hc : SameLoads P c) : D.Admits c := by
  obtain ⟨hwf, rfl, hfilled⟩ := hD
  cases c with
  | insert key row => exact ⟨hc, fun _ => hfilled.fits⟩
  | reopen leafLoad innerNodeLoad counts malloc =>
      obtain ⟨rfl, rfl⟩ := hc
      exact ⟨hwf.valid.leafLoad, hwf.valid.innerNodeLoad⟩
  | find key => trivial
  | select minVal maxVal => trivial
  | getRootPage => trivial
  | getTotalPage => trivial

lemma Steady.answer (hD : Steady P D) {c : TreeCall} {r : TreeReply} (hc : SameLoads P c)
    (h : answer c D = .ok (r, D')) : Steady P D' := by
  rcases answer_cases h with ⟨key, row, rfl, hne, -, -, rfl⟩ | ⟨_, _, _, _, rfl, rfl⟩ | ⟨rfl, -⟩
  · exact hD.put hne
  · obtain ⟨rfl, rfl⟩ := hc
    rwa [hD.withLoads]
  · exact hD

/-- A run keeps it. -/
lemma Steady.runCalls (hD : Steady P D) {calls : List TreeCall} {replies : List TreeReply}
    (hcalls : ∀ c ∈ calls, SameLoads P c) (h : runCalls calls D = .ok (replies, D')) :
    Steady P D' := by
  have hall : Runs.Along Dictionary.answer (fun _ c => SameLoads P c) calls D :=
    @Runs.along_of_invariant _ _ _ _ Dictionary.answer (fun _ => True) (SameLoads P) _
      (fun _ _ _ hc => ⟨hc, fun _ _ _ => trivial⟩) calls D trivial hcalls
  exact Runs.runAll_preserves (fun _ _ _ _ hD hc h => hD.answer hc h) hD hall h

/-- **With loads that stay the same every call meets its condition.** -/
theorem Steady.admitsAll (hD : Steady P D) {calls : List TreeCall}
    (hcalls : ∀ c ∈ calls, SameLoads P c) : D.AdmitsAll calls :=
  Runs.along_of_invariant (fun _ _ hD hc => ⟨hD.admits hc, fun _ _ h => hD.answer hc h⟩) hD hcalls

end Dictionary

end DbToy
