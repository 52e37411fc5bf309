import DbToy.SessionRuns

/-!
# What a tree is to its client

A new tree with even positive loads, and a row size of which two cells fit a page, is called in any
way, closed and opened again with the same loads at any time.

* `tree_refines_firstRows`: as long as the page table lasts, every reply is that of the map of
  first rows.
* `tree_calls_never_fault`: no assertion fails, no page id is out of range, and every loop ends.
* `reopening_is_invisible`: a client that leaves out the closing and opening gets the same replies.
-/

namespace DbToy

open Dictionary (SameLoads)

variable {P : TreeParams} {S₀ S₁ : Session}

/-- A new session is an empty dictionary. -/
lemma mirrors_of_create (hP : P.Valid) {file : Option (List UInt8)} {counts : ℕ → ℕ}
    {malloc : ℕ → Page} (hcreate : Session.create P file counts malloc = .ok S₀) :
    S₀.Mirrors (.create P) := by
  obtain ⟨S, hS, hmirrors⟩ := Session.create_mirrors hP file counts malloc
  rwa [Except.ok.inj (hcreate.symm.trans hS)]

lemma admitsAll_of_sameLoads (hP : P.Valid) {calls : List TreeCall}
    (hcalls : ∀ c ∈ calls, SameLoads P c) : (Dictionary.create P).AdmitsAll calls :=
  (Dictionary.create_steady hP).admitsAll hcalls

/-- Whether the page table lasts can be seen from the dictionary. -/
lemma runCalls_ne_pageIndex (hmirrors : S₀.Mirrors (.create P)) {calls : List TreeCall}
    (hcalls : (Dictionary.create P).AdmitsAll calls)
    (hok : ((Dictionary.create P).runCalls calls).isOk = true) (i : ℕ) :
    S₀.runCalls calls ≠ .error (.pageIndex i) := by
  rcases Session.runCalls_outcome hmirrors hcalls with ⟨_, _, _, hS, -⟩ | ⟨-, hD⟩
  · rw [hS]
    exact fun h => nomatch h
  · rw [hD] at hok
    exact absurd hok (by decide)

/-- **The tree is the map of first rows.**  Insertion succeeds for the keys that the map does not
have and is refused for the others; `find` says whether the map has the key, and then the cell at
its location holds the key and its row; selection gives the pairs of the map in the range, in
increasing order of their keys. -/
theorem tree_refines_firstRows (hP : P.Valid) {file : Option (List UInt8)} {counts : ℕ → ℕ}
    {malloc : ℕ → Page} (hcreate : Session.create P file counts malloc = .ok S₀)
    {calls : List TreeCall} (hcalls : ∀ c ∈ calls, SameLoads P c)
    (hpages : ∀ i, S₀.runCalls calls ≠ .error (.pageIndex i)) :
    ∃ replies S, S₀.runCalls calls = .ok (replies, S) ∧ ExpectsAll calls replies := by
  rcases Session.runCalls_outcome (mirrors_of_create hP hcreate)
    (admitsAll_of_sameLoads hP hcalls) with ⟨replies, S, -, hS, -, -, -, -, hexpects⟩ | ⟨hS, -⟩
  · exact ⟨replies, S, hS, hexpects⟩
  · exact absurd hS (hpages _)

/-- A small table. -/
def smallParams : TreeParams := ⟨1, 2, 2⟩

lemma smallParams_valid : smallParams.Valid := ⟨by decide, by decide, by decide⟩

/-- A session that splits the root, meets a key twice and reopens the tree. -/
def smallCalls : List TreeCall :=
  [.insert 5 [1], .insert 3 [2], .insert 5 [9], .insert 4 [3], .find 5,
    .reopen 2 2 (fun _ => 1) fun _ => Page.filled 9, .insert 7 [4], .select 4 6]

lemma smallCalls_sameLoads : ∀ c ∈ smallCalls, SameLoads smallParams c := by
  simp [smallCalls, SameLoads, smallParams]

theorem tree_refines_firstRows_small : ∃ S₀ replies S,
    Session.create smallParams none (fun _ => 0) (fun _ => Page.filled 7) = .ok S₀ ∧
      S₀.runCalls smallCalls = .ok (replies, S) ∧ ExpectsAll smallCalls replies := by
  obtain ⟨S₀, hcreate, hmirrors⟩ := Session.create_mirrors smallParams_valid none (fun _ => 0)
    fun _ => Page.filled 7
  obtain ⟨replies, S, hrun, hexpects⟩ := tree_refines_firstRows smallParams_valid hcreate
    smallCalls_sameLoads (runCalls_ne_pageIndex hmirrors
      (admitsAll_of_sameLoads smallParams_valid smallCalls_sameLoads) (by decide))
  exact ⟨S₀, replies, S, hcreate, hrun, hexpects⟩

/-- **No call fails** but for want of pages, whatever the client does. -/
theorem tree_calls_never_fault (hP : P.Valid) (file : Option (List UInt8)) (counts : ℕ → ℕ)
    (malloc : ℕ → Page) :
    ∃ S₀, Session.create P file counts malloc = .ok S₀ ∧
      ∀ calls, (∀ c ∈ calls, SameLoads P c) →
        (∃ replies S, S₀.runCalls calls = .ok (replies, S)) ∨
          S₀.runCalls calls = .error (.pageIndex tableMaxPages) := by
  obtain ⟨S₀, hcreate, hmirrors⟩ := Session.create_mirrors hP file counts malloc
  refine ⟨S₀, hcreate, ?_⟩
  intro calls hcalls
  rcases Session.runCalls_outcome hmirrors (admitsAll_of_sameLoads hP hcalls) with
    ⟨replies, S, -, hS, -⟩ | ⟨hS, -⟩
  · exact Or.inl ⟨replies, S, hS⟩
  · exact Or.inr hS

theorem tree_calls_never_fault_small :
    ∃ S₀, Session.create smallParams none (fun _ => 0) (fun _ => Page.filled 7) = .ok S₀ ∧
      ∀ calls, (∀ c ∈ calls, SameLoads smallParams c) →
        (∃ replies S, S₀.runCalls calls = .ok (replies, S)) ∨
          S₀.runCalls calls = .error (.pageIndex tableMaxPages) :=
  tree_calls_never_fault smallParams_valid none (fun _ => 0) fun _ => Page.filled 7

/-! ## Closing and opening -/

/-- The call closes the tree and opens its file. -/
def TreeCall.isReopen : TreeCall → Bool
  | .reopen _ _ _ _ => true
  | _ => false

/-- The calls of a client that keeps the tree open. -/
def uncut (calls : List TreeCall) : List TreeCall := calls.filter fun c => !c.isReopen

/-- The replies to the calls that do not reopen. -/
def uncutReplies (replies : List TreeReply) : List TreeReply :=
  replies.filter fun r => !decide (r = .reopened)

/-- To a dictionary with the same loads, reopening is nothing. -/
lemma runCalls_uncut {D : Dictionary} (hD : D.Steady P) {calls : List TreeCall}
    (hcalls : ∀ c ∈ calls, SameLoads P c) : D.runCalls (uncut calls)
      = (D.runCalls calls).map fun p => (uncutReplies p.1, p.2) := by
  refine @Runs.runAll_filter _ _ _ _ Dictionary.answer (Dictionary.Steady P) (SameLoads P)
    TreeCall.isReopen (fun r => decide (r = .reopened)) ?_ (fun c D r D' hD hc hreopen h => ⟨?_,
    hD.answer hc h⟩) calls D hD hcalls
  · intro c D hD hc hreopen
    cases c with
    | reopen leafLoad innerNodeLoad counts malloc =>
        obtain ⟨rfl, rfl⟩ := hc
        exact ⟨.reopened, by rw [Dictionary.answer, hD.withLoads], rfl⟩
    | insert key row => cases hreopen
    | find key => cases hreopen
    | select minVal maxVal => cases hreopen
    | getRootPage => cases hreopen
    | getTotalPage => cases hreopen
  · cases c with
    | reopen leafLoad innerNodeLoad counts malloc => cases hreopen
    | insert key row =>
        simp only [Dictionary.answer] at h
        split_ifs at h <;> · cases h; rfl
    | find key => cases h; rfl
    | select minVal maxVal => cases h; rfl
    | getRootPage => cases h; rfl
    | getTotalPage => cases h; rfl

lemma Session.Mirrors.pager_eq {S S' : Session} {D : Dictionary} (h : S.Mirrors D)
    (h' : S'.Mirrors D) : S.tree.pager.getRootPage = S'.tree.pager.getRootPage ∧
      S.tree.pager.numPages = S'.tree.pager.numPages := by
  obtain ⟨s, hs⟩ := h
  obtain ⟨s', hs'⟩ := h'
  rw [hs.represents.pager.getRootPage_eq, hs'.represents.pager.getRootPage_eq,
    hs.represents.pager.numPages_eq, hs'.represents.pager.numPages_eq, hs.stores.rootPid,
    hs'.stores.rootPid, hs.numPages, hs'.numPages]
  exact ⟨rfl, rfl⟩

/-- **Closing and opening a tree is invisible**: the calls in between get the same replies as
without, the locations that `find` gives and the answers about root page and number of pages
included, and root page and number of pages are the same in the end.  The two trees may have been
created on different files and may be handed different blocks. -/
theorem reopening_is_invisible (hP : P.Valid) {file file' : Option (List UInt8)}
    {counts counts' : ℕ → ℕ} {malloc malloc' : ℕ → Page}
    (hcreate : Session.create P file counts malloc = .ok S₀)
    (hcreate' : Session.create P file' counts' malloc' = .ok S₁)
    {calls : List TreeCall} (hcalls : ∀ c ∈ calls, SameLoads P c)
    (hpages : ∀ i, S₁.runCalls (uncut calls) ≠ .error (.pageIndex i)) :
    ∃ replies S S', S₀.runCalls calls = .ok (replies, S) ∧
      S₁.runCalls (uncut calls) = .ok (uncutReplies replies, S') ∧
      S.tree.pager.getRootPage = S'.tree.pager.getRootPage ∧
      S.tree.pager.numPages = S'.tree.pager.numPages := by
  have hadmits := admitsAll_of_sameLoads hP hcalls
  have huncut := runCalls_uncut (Dictionary.create_steady hP) hcalls
  have hadmits' := admitsAll_of_sameLoads hP fun c (hc : c ∈ uncut calls) =>
    hcalls c (List.mem_of_mem_filter hc)
  rcases Session.runCalls_outcome (mirrors_of_create hP hcreate') hadmits' with
    ⟨replies', S', D', hS', hD', hmirrors', -⟩ | ⟨hS', -⟩
  · rcases Session.runCalls_outcome (mirrors_of_create hP hcreate) hadmits with
      ⟨replies, S, D, hS, hD, hmirrors, -⟩ | ⟨-, hD⟩
    · rw [hD, map_ok, hD'] at huncut
      obtain ⟨hreplies, hdict⟩ := Prod.mk.inj (Except.ok.inj huncut)
      subst hreplies hdict
      obtain ⟨hroot, hnum⟩ := hmirrors.pager_eq hmirrors'
      exact ⟨replies, S, S', hS, hS', hroot, hnum⟩
    · rw [hD, map_error, hD'] at huncut
      exact nomatch huncut
  · exact absurd hS' (hpages _)

theorem reopening_is_invisible_small : ∃ S₀ S₁ replies S S',
    Session.create smallParams none (fun _ => 0) (fun _ => Page.filled 7) = .ok S₀ ∧
      Session.create smallParams (some [1, 2]) (fun _ => 0) (fun _ => Page.filled 0) = .ok S₁ ∧
      S₀.runCalls smallCalls = .ok (replies, S) ∧
      S₁.runCalls (uncut smallCalls) = .ok (uncutReplies replies, S') ∧
      S.tree.pager.getRootPage = S'.tree.pager.getRootPage ∧
      S.tree.pager.numPages = S'.tree.pager.numPages := by
  obtain ⟨S₀, hcreate, -⟩ := Session.create_mirrors smallParams_valid none (fun _ => 0)
    fun _ => Page.filled 7
  obtain ⟨S₁, hcreate', hmirrors'⟩ := Session.create_mirrors smallParams_valid (some [1, 2])
    (fun _ => 0) fun _ => Page.filled 0
  have hadmits := admitsAll_of_sameLoads smallParams_valid fun c (hc : c ∈ uncut smallCalls) =>
    smallCalls_sameLoads c (List.mem_of_mem_filter hc)
  obtain ⟨replies, S, S', hrun⟩ := reopening_is_invisible smallParams_valid hcreate hcreate'
    smallCalls_sameLoads (runCalls_ne_pageIndex hmirrors' hadmits (by decide))
  exact ⟨S₀, S₁, replies, S, S', hcreate, hcreate', hrun⟩

end DbToy
