import DbToy.FirstRows
import DbToy.TreeVisit

/-!
# Sessions against dictionaries

A session answers every call as its dictionary does, as long as the call meets `Admits`
(`answer_simulates`), and so it answers whole runs (`runCalls_agrees`, `runCalls_outcome`).

* `Simulates`: the pages of the session's tree store the tree of the dictionary.
* `Moves`: what a call makes of the pages.
* `Mirrors`: the pages of the session store the dictionary; they store no other (`Mirrors.unique`).
-/

namespace DbToy

open SearchTree

namespace Session

variable {S : Session} {s s' : TreeImage}

/-! ## Methods -/

lemma call_of_ok {α : Type} {p : PageM α} {a : α} (reply : α → TreeReply)
    (hrep : S.tree.Represents s) (h : p.run TreeImage.handler s = .ok (a, s')) :
    ∃ t, S.call p reply = .ok (reply a, { S with tree := t }) ∧ t.Represents s' := by
  have hagree := BPlusTree.run_agrees p hrep
  rw [h] at hagree
  obtain ⟨t, ht, hrep'⟩ := hagree.exists_ok
  exact ⟨t, by rw [call, ht, ok_bind], hrep'⟩

lemma call_of_error {α : Type} {p : PageM α} {e : Fault} (reply : α → TreeReply)
    (hrep : S.tree.Represents s) (h : p.run TreeImage.handler s = .error e) :
    S.call p reply = .error e := by
  have hagree := BPlusTree.run_agrees p hrep
  rw [h] at hagree
  rw [call, hagree.eq_error, error_bind]

/-! ## Simulation -/

variable {D D' : Dictionary}

structure Simulates (S : Session) (s : TreeImage) (D : Dictionary) : Prop where
  params : S.params = D.params
  valid : D.params.Valid
  represents : S.tree.Represents s
  stores : s.Stores D.params.rowSize D.tree.height D.tree.tree
  numPages : s.map.numPages = D.numPages

/-- What an answered call makes of the pages. -/
def Moves (D : Dictionary) (s s' : TreeImage) : TreeCall → TreeReply → Prop
  | .insert key row, .status .success => Inserts D.params s s' (key, row) D.tree
  | .reopen _ _ _ malloc, _ => s' = { s with malloc := malloc }
  | _, _ => s' = s

/-- A method that leaves the pages as they are. -/
lemma Simulates.call_read (h : S.Simulates s D) {α : Type} {p : PageM α} {a : α}
    (reply : α → TreeReply) (hrun : p.run TreeImage.handler s = .ok (a, s)) :
    ∃ S', S.call p reply = .ok (reply a, S') ∧ S'.Simulates s D := by
  obtain ⟨t, ht, hrep⟩ := call_of_ok reply h.represents hrun
  exact ⟨_, ht, h.params, h.valid, hrep, h.stores, h.numPages⟩

/-- Only a new cell changes the pages. -/
lemma Moves.cases {c : TreeCall} {r : TreeReply} (h : Moves D s s' c r) :
    (∃ key row, c = .insert key row ∧ r = .status .success ∧
      Inserts D.params s s' (key, row) D.tree) ∨ s'.map = s.map := by
  cases c with
  | insert key row =>
      cases r with
      | status status =>
          cases status with
          | success => exact Or.inl ⟨key, row, rfl, rfl, h⟩
          | failDuplicateKey => exact Or.inr (congrArg TreeImage.map h)
      | location loc cell => exact Or.inr (congrArg TreeImage.map h)
      | rows cells => exact Or.inr (congrArg TreeImage.map h)
      | number n => exact Or.inr (congrArg TreeImage.map h)
      | reopened => exact Or.inr (congrArg TreeImage.map h)
  | find key => exact Or.inr (congrArg TreeImage.map h)
  | select minVal maxVal => exact Or.inr (congrArg TreeImage.map h)
  | getRootPage => exact Or.inr (congrArg TreeImage.map h)
  | getTotalPage => exact Or.inr (congrArg TreeImage.map h)
  | reopen leafLoad innerNodeLoad counts malloc =>
      have heq : s' = { s with malloc := malloc } := h
      exact Or.inr (by rw [heq])

lemma Simulates.insert (h : S.Simulates s D) {key : UInt32} {row : Row}
    (hc : D.Admits (.insert key row)) :
    (∃ r S' s' D', S.answer (.insert key row) = .ok (r, S') ∧
      D.answer (.insert key row) = .ok (r, D') ∧ S'.Simulates s' D' ∧
      Moves D s s' (.insert key row) r) ∨
    S.answer (.insert key row) = .error (.pageIndex tableMaxPages) ∧
      D.answer (.insert key row) = .error (.pageIndex tableMaxPages) := by
  obtain ⟨hrow, hfits⟩ := hc
  obtain ⟨hparams, hvalid, hrep, hstores, hnum⟩ := h
  have hanswer : S.answer (.insert key row)
      = S.call (BPlusTree.insert D.params key row) .status := by
    rw [← hparams]; rfl
  rw [hanswer, Dictionary.answer]
  by_cases hmem : key ∈ D.cells.map Prod.fst
  · have hrun := BPlusTree.run_insert_of_mem hvalid hstores hmem row
    obtain ⟨t, ht, hrep'⟩ := call_of_ok TreeReply.status hrep hrun
    rw [if_pos hmem]
    exact Or.inl ⟨_, _, s, D, ht, rfl, ⟨hparams, hvalid, hrep', hstores, hnum⟩, rfl⟩
  · obtain ⟨hgood, hbad⟩ := BPlusTree.run_insert hvalid hstores hmem hrow (hfits hmem)
    have hput : (D.put (key, row)).numPages = (D.tree.insert D.params.leafCapacity
        D.params.innerCapacity (key, row) s.map.numPages).2 := by rw [hnum]; rfl
    rw [if_neg hmem, hput]
    by_cases hroom : (D.tree.insert D.params.leafCapacity D.params.innerCapacity (key, row)
        s.map.numPages).2 ≤ tableMaxPages
    · obtain ⟨s', hrun, hins, -⟩ := hgood hroom
      obtain ⟨t, ht, hrep'⟩ := call_of_ok TreeReply.status hrep hrun
      rw [if_pos hroom]
      have hstores' := hins.stores
      have hnum' := hins.numPages
      rw [hnum] at hstores' hnum'
      exact Or.inl ⟨_, _, s', D.put (key, row), ht, rfl, ⟨hparams, hvalid, hrep', hstores', hnum'⟩,
        hins⟩
    · rw [if_neg hroom]
      exact Or.inr ⟨call_of_error TreeReply.status hrep (hbad (not_le.mp hroom)), rfl⟩

lemma Simulates.reopen (h : S.Simulates s D) {leafLoad innerNodeLoad : ℕ} {counts : ℕ → ℕ}
    {malloc : ℕ → Page} (hc : D.Admits (.reopen leafLoad innerNodeLoad counts malloc)) :
    ∃ S', S.answer (.reopen leafLoad innerNodeLoad counts malloc) = .ok (.reopened, S') ∧
      S'.Simulates { s with malloc := malloc } (D.withLoads leafLoad innerNodeLoad) := by
  obtain ⟨hparams, hvalid, hrep, hstores, hnum⟩ := h
  have hvalid' : (D.withLoads leafLoad innerNodeLoad).params.Valid :=
    ⟨hvalid.two_cells, hc.1, hc.2⟩
  obtain ⟨file, t, hdestroy, hnew, hrep', hstores'⟩ :=
    BPlusTree.reopen_stores hvalid' hrep hstores counts malloc
  refine ⟨⟨(D.withLoads leafLoad innerNodeLoad).params, t⟩, ?_, rfl, hvalid', hrep', hstores', hnum⟩
  rw [answer, hdestroy, ok_bind, hparams]
  show (BPlusTree.new (D.withLoads leafLoad innerNodeLoad).params (some file) 'o' counts malloc
    >>= _) = _
  rw [hnew]
  rfl

/-- **One call.** The session and the dictionary give the same reply, or both run out of pages. -/
theorem answer_simulates (h : S.Simulates s D) {c : TreeCall} (hc : D.Admits c) :
    (∃ r S' s' D', S.answer c = .ok (r, S') ∧ D.answer c = .ok (r, D') ∧ S'.Simulates s' D' ∧
      Moves D s s' c r) ∨
    S.answer c = .error (.pageIndex tableMaxPages) ∧
      D.answer c = .error (.pageIndex tableMaxPages) := by
  have hread : ∀ {α : Type} {p : PageM α} {a : α} (reply : α → TreeReply),
      p.run TreeImage.handler s = .ok (a, s) → ∃ S', S.call p reply = .ok (reply a, S') ∧
        S'.Simulates s D := fun reply hrun => h.call_read reply hrun
  have hroom := h.valid.room
  cases c with
  | insert key row => exact h.insert hc
  | find key =>
      have hrun : (BPlusTree.findRow D.params.rowSize key).run TreeImage.handler s = .ok
          ((locate key D.tree.height D.tree.tree, lookup key D.cells), s) :=
        BPlusTree.run_findRow hroom h.stores key
      obtain ⟨S', hS', hsim⟩ := hread (fun r => .location r.1 r.2) hrun
      refine Or.inl ⟨_, S', s, D, ?_, rfl, hsim, rfl⟩
      rw [answer, h.params]
      exact hS'
  | select minVal maxVal =>
      have hrun : (BPlusTree.selectRows D.params.rowSize minVal maxVal).run TreeImage.handler s
          = .ok (D.cells.filter (inRange minVal maxVal), s) :=
        BPlusTree.run_selectRows hroom h.stores
      obtain ⟨S', hS', hsim⟩ := hread .rows hrun
      refine Or.inl ⟨_, S', s, D, ?_, rfl, hsim, rfl⟩
      rw [answer, h.params]
      exact hS'
  | getRootPage =>
      obtain ⟨S', hS', hsim⟩ := hread .number (BPlusTree.run_getRootPage s)
      exact Or.inl ⟨_, S', s, D, hS', by rw [Dictionary.answer, h.stores.rootPid], hsim, rfl⟩
  | getTotalPage =>
      obtain ⟨S', hS', hsim⟩ := hread .number (BPlusTree.run_getTotalPage s)
      exact Or.inl ⟨_, S', s, D, hS', by rw [Dictionary.answer, h.numPages], hsim, rfl⟩
  | reopen leafLoad innerNodeLoad counts malloc =>
      obtain ⟨S', hS', hsim⟩ := h.reopen hc
      exact Or.inl ⟨_, S', _, _, hS', rfl, hsim, rfl⟩

/-! ## Runs -/

/-- The pages of the session's tree store the dictionary. -/
def Mirrors (S : Session) (D : Dictionary) : Prop := ∃ s, S.Simulates s D

lemma Mirrors.answer (h : S.Mirrors D) {c : TreeCall} (hc : D.Admits c) :
    Prog.Agree Mirrors (S.answer c) (D.answer c) := by
  obtain ⟨s, hs⟩ := h
  rcases answer_simulates hs hc with ⟨r, S', s', D', hS, hD, hsim, -⟩ | ⟨hS, hD⟩
  · rw [hS, hD]
    exact ⟨rfl, s', hsim⟩
  · rw [hS, hD]
    rfl

/-- **The session and the dictionary answer a run alike** whose calls meet the condition. -/
theorem runCalls_agrees (h : S.Mirrors D) {calls : List TreeCall} (hcalls : D.AdmitsAll calls) :
    Prog.Agree Mirrors (S.runCalls calls) (D.runCalls calls) :=
  @Runs.runAll_related _ _ _ _ _ Mirrors answer Dictionary.answer Dictionary.Admits
    (fun _ _ _ h hc => h.answer hc) calls S D h hcalls

/-- **A new session** is an empty dictionary. -/
theorem create_mirrors {P : TreeParams} (hP : P.Valid) (file : Option (List UInt8))
    (counts : ℕ → ℕ) (malloc : ℕ → Page) :
    ∃ S, create P file counts malloc = .ok S ∧ S.Mirrors (.create P) := by
  obtain ⟨t, s, hnew, hrep, hstores, hnum, -⟩ := BPlusTree.new_create hP file counts malloc
  exact ⟨⟨P, t⟩, by rw [create, hnew, ok_bind], s, rfl, hP, hrep, hstores, hnum⟩

/-- **A run from a new tree** gives the replies of the map of first rows, or overruns the page
table. -/
theorem runCalls_outcome {P : TreeParams} (h : S.Mirrors (.create P)) {calls : List TreeCall}
    (hcalls : (Dictionary.create P).AdmitsAll calls) :
    (∃ replies S' D, S.runCalls calls = .ok (replies, S') ∧
      (Dictionary.create P).runCalls calls = .ok (replies, D) ∧ S'.Mirrors D ∧ D.WF ∧
      D.Keeps (rowsOf calls) ∧ ExpectsAll calls replies) ∨
    S.runCalls calls = .error (.pageIndex tableMaxPages) ∧
      (Dictionary.create P).runCalls calls = .error (.pageIndex tableMaxPages) := by
  have hagree := runCalls_agrees h hcalls
  have hP : P.Valid := by
    obtain ⟨s, hs⟩ := h
    exact hs.valid
  cases hrun : (Dictionary.create P).runCalls calls with
  | error e =>
      rw [hrun] at hagree
      obtain ⟨c, D, hD⟩ := Runs.runAll_eq_error hrun
      rw [Dictionary.answer_eq_error hD] at hagree ⊢
      exact Or.inr ⟨hagree.eq_error, rfl⟩
  | ok p =>
      obtain ⟨replies, D⟩ := p
      rw [hrun] at hagree
      obtain ⟨S', hS', hmirrors⟩ := hagree.exists_ok
      obtain ⟨hwf, hkeeps, hexpects⟩ := Dictionary.runCalls_expects hP hcalls hrun
      exact Or.inl ⟨replies, S', D, hS', rfl, hmirrors, hwf, hkeeps, hexpects⟩

/-! ## The dictionary that pages store -/

/-- Images of one pager have the same pages. -/
lemma content_eq {t : BPlusTree} (h : t.Represents s) (h' : t.Represents s') :
    s.map.numPages = s'.map.numPages ∧ s.map.rootPid = s'.map.rootPid ∧
      ∀ id < s.map.numPages, s.map.content id = s'.map.content id := by
  have hnum := h.pager.numPages_eq.symm.trans h'.pager.numPages_eq
  exact ⟨hnum, h.pager.getRootPage_eq.symm.trans h'.pager.getRootPage_eq, fun id hid =>
    (h.pager.current id hid).unique (h'.pager.current id (hnum ▸ hid))⟩

/-- **A session's pages store one dictionary only.** -/
theorem Mirrors.unique (h : S.Mirrors D) (h' : S.Mirrors D') : D = D' := by
  obtain ⟨s, hparams, -, hrep, hstores, hnum⟩ := h
  obtain ⟨s', hparams', -, hrep', hstores', hnum'⟩ := h'
  obtain ⟨hnums, hroot, hcontent⟩ := content_eq hrep hrep'
  have heq : D.params = D'.params := hparams.symm.trans hparams'
  have hholds := hstores'.holds.congr fun id hid => by
    rw [← hcontent id (hnums.symm ▸ hstores'.lt_numPages id hid)]
  have htree := hstores.holds.unique (heq ▸ hholds)
    (hstores.rootPid.symm.trans (hroot.trans hstores'.rootPid))
  obtain ⟨P, R, n⟩ := D
  obtain ⟨P', R', n'⟩ := D'
  obtain rfl : P = P' := heq
  obtain rfl : n = n' := hnum.symm.trans (hnums.trans hnum')
  obtain rfl : R = R' := htree
  rfl

/-- A condition on the dictionary is one on the pages that store it. -/
theorem along_of_dictionary {Meets : Dictionary → TreeCall → Prop} (h : S.Mirrors D)
    {calls : List TreeCall} (hadmits : D.AdmitsAll calls)
    (hmeets : Runs.Along Dictionary.answer Meets calls D) :
    Runs.Along answer (fun S c => ∀ D, S.Mirrors D → Meets D c) calls S :=
  @Runs.along_of_related _ _ _ _ _ (fun (D : Dictionary) (S : Session) => S.Mirrors D)
    Dictionary.answer answer (fun D c => D.Admits c ∧ Meets D c) _
    (fun _ _ _ hrel hc _ hD => hrel.unique hD ▸ hc.2)
    (fun _ _ _ hrel hc => (hrel.answer hc.1).symm) calls D S h (hadmits.and hmeets)

end Session

end DbToy
