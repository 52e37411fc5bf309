import DbToy.Recovery

/-!
# Processes that end without closing their file

The process is killed, or an assertion or `exit(EXIT_FAILURE)` ends it: no destructor runs, and the
file stays as it is, in the middle of a method perhaps.  `Session.cut` is that file.

The pages in it are those that were there when the file was opened, in any case.  Whether they are
found again depends on the root id at its front, which is that of the time when a page was added
last.  So a session that gives the tree a new root and then adds a page makes the file unreadable
until it is closed (`interrupted_session`), and a database that has never been closed cannot be
opened (`unsaved_database_lost`).

* `BPlusTree.Wrote`: what a method has done to the file so far.
* `Session.Since`: what the calls of a session have done to it.
-/

namespace DbToy

open Bytes SearchTree

/-! ## Inside a method -/

namespace BPlusTree

/-- From the beginning of a method to a moment while it runs. -/
structure Wrote (t t' : BPlusTree) : Prop where
  numPages_le : t.pager.numPages ≤ t'.pager.numPages
  numPages_max : t'.pager.numPages ≤ tableMaxPages
  root : t'.pager.getRootPage = t.pager.getRootPage ∨
    t.pager.numPages ≤ t'.pager.getRootPage ∧ t'.pager.getRootPage < t'.pager.numPages
  drop_eq : t'.pager.fd.bytes.drop 16 = t.pager.fd.bytes.drop 16
  front : t'.pager.numPages = t.pager.numPages ∧ t'.pager.fd.bytes = t.pager.fd.bytes ∨
    t.pager.numPages < t'.pager.numPages ∧
      slice t'.pager.fd.bytes 0 16 = metaBytes ⟨t.pager.getRootPage, t'.pager.numPages⟩

/-- With the phase of the protocol. -/
def Wrote.InPhase (t : BPlusTree) : Phase → BPlusTree → Prop
  | .adding last, t' => Wrote t t' ∧ t'.pager.getRootPage = t.pager.getRootPage ∧
      ∀ id ∈ last, t.pager.numPages ≤ id ∧ id < t'.pager.numPages
  | .rooted, t' => Wrote t t'

namespace Wrote

variable {t t₁ t₂ : BPlusTree}

lemma InPhase.wrote {q : Phase} (h : InPhase t q t₁) : Wrote t t₁ := by
  cases q with
  | adding last => exact h.1
  | rooted => exact h

lemma refl (hmax : t.pager.numPages ≤ tableMaxPages) : InPhase t (.adding none) t :=
  ⟨⟨le_rfl, hmax, Or.inl rfl, rfl, Or.inl ⟨rfl, rfl⟩⟩, rfl, fun _ h => nomatch h⟩

lemma of_file (h : Wrote t t₁) (hbytes : t₂.pager.fd.bytes = t₁.pager.fd.bytes)
    (hmeta : t₂.pager.metaData = t₁.pager.metaData) : Wrote t t₂ := by
  have hnum : t₂.pager.numPages = t₁.pager.numPages := congrArg BtreeMetaData.numPages hmeta
  have hroot : t₂.pager.getRootPage = t₁.pager.getRootPage := congrArg BtreeMetaData.rootPid hmeta
  constructor
  · rw [hnum]
    exact h.numPages_le
  · rw [hnum]
    exact h.numPages_max
  · rw [hnum, hroot]
    exact h.root
  · rw [hbytes]
    exact h.drop_eq
  · rw [hnum, hbytes]
    exact h.front

lemma InPhase.of_file {q : Phase} (h : InPhase t q t₁)
    (hsame : t₂.pager.fd.bytes = t₁.pager.fd.bytes ∧ t₂.pager.metaData = t₁.pager.metaData) :
    InPhase t q t₂ := by
  have hwrote := h.wrote.of_file hsame.1 hsame.2
  cases q with
  | rooted => exact hwrote
  | adding last =>
      refine ⟨hwrote, (congrArg BtreeMetaData.rootPid hsame.2).trans h.2.1, ?_⟩
      have hnum : t₂.pager.numPages = t₁.pager.numPages := congrArg BtreeMetaData.numPages hsame.2
      rw [hnum]
      exact h.2.2

/-- **One request** that the protocol allows. -/
lemma InPhase.handler {q : Phase} {o : PageOp} {x : o.Ans} (h : InPhase t q t₁)
    (ho : rootLast.Allows q o) (hs : BPlusTree.handler o t₁ = .ok (x, t₂)) :
    InPhase t (rootLast.next q o x) t₂ := by
  by_cases hplain : o.Plain
  · have hnext : rootLast.next q o x = q := by
      cases o <;> cases q <;> first | rfl | exact absurd hplain not_false
    rw [hnext]
    exact h.of_file (handler_plain hplain hs)
  · cases q with
    | rooted =>
        cases o with
        | allocatePage => exact absurd ho not_false
        | setRootPage id => exact absurd ho not_false
        | getPage id => exact absurd trivial hplain
        | writePage id page => exact absurd trivial hplain
        | getRootPage => exact absurd trivial hplain
        | numPages => exact absurd trivial hplain
        | getRoot => exact absurd trivial hplain
        | setRoot id => exact absurd trivial hplain
    | adding last =>
        obtain ⟨hwrote, hroot, hlast⟩ := h
        cases o with
        | allocatePage =>
            obtain ⟨⟨new, pager⟩, halloc, hs⟩ := bind_eq_ok hs
            cases hs
            obtain ⟨hid, hmeta, hbytes⟩ := BTreePager.allocatePage_file halloc
            have hroom := BTreePager.allocatePage_lt halloc
            have hnum : pager.numPages = t₁.pager.numPages + 1 := by rw [BTreePager.numPages, hmeta]
            have hroot' : pager.getRootPage = t.pager.getRootPage := by
              rw [← hroot, BTreePager.getRootPage, hmeta]
            have hle := hwrote.numPages_le
            refine ⟨⟨?_, ?_, Or.inl hroot', ?_, Or.inr ⟨?_, ?_⟩⟩, hroot', ?_⟩
            · show _ ≤ pager.numPages
              omega
            · show pager.numPages ≤ _
              omega
            · show pager.fd.bytes.drop 16 = _
              rw [hbytes, drop_patch_zero 0 _ (length_metaBytes _)]
              exact hwrote.drop_eq
            · show _ < pager.numPages
              omega
            · show slice pager.fd.bytes 0 16 = metaBytes ⟨_, pager.numPages⟩
              have hsame := slice_patch_same 0 t₁.pager.fd.bytes 0
                (metaBytes ⟨t₁.pager.getRootPage, t₁.pager.numPages + 1⟩)
              rw [length_metaBytes] at hsame
              rw [hbytes, hsame, hnum, hroot]
            · intro id hid'
              cases hid'
              exact ⟨hle.trans_eq hid.symm, hid.trans_lt (hnum ▸ Nat.lt_succ_self _)⟩
        | setRootPage id =>
            obtain ⟨hge, hlt⟩ := hlast id ho
            cases hs
            have hmax := hwrote.numPages_max
            have htable : tableMaxPages < 2 ^ 64 := by decide
            have hmod : id % 2 ^ 64 = id := Nat.mod_eq_of_lt (by omega)
            refine ⟨hwrote.numPages_le, hmax, Or.inr ?_, hwrote.drop_eq, hwrote.front⟩
            show _ ≤ id % 2 ^ 64 ∧ id % 2 ^ 64 < _
            rw [hmod]
            exact ⟨hge, hlt⟩
        | getPage id => exact absurd trivial hplain
        | writePage id page => exact absurd trivial hplain
        | getRootPage => exact absurd trivial hplain
        | numPages => exact absurd trivial hplain
        | getRoot => exact absurd trivial hplain
        | setRoot id => exact absurd trivial hplain

/-- **Wherever a method is stopped.** -/
lemma stopped {α : Type} {p : PageM α} {Post : Phase → α → Prop}
    (hp : Prog.Follows rootLast (.adding none) p Post) (hmax : t.pager.numPages ≤ tableMaxPages)
    (n : ℕ) : Wrote t (p.stopped BPlusTree.handler n t) := by
  obtain ⟨q, hq⟩ := @Prog.Follows.stopped _ _ _ _ _ _ rootLast _ Post BPlusTree.handler
    (InPhase t) (fun h ho hs => h.handler ho hs) p hp n t (refl hmax)
  exact hq.wrote

/-- And at its end. -/
lemma run {α : Type} {p : PageM α} {Post : Phase → α → Prop}
    (hp : Prog.Follows rootLast (.adding none) p Post) (hmax : t.pager.numPages ≤ tableMaxPages)
    {a : α} (h : p.run BPlusTree.handler t = .ok (a, t₁)) : Wrote t t₁ := by
  obtain ⟨q, hq, -⟩ := @Prog.Follows.run _ _ _ _ _ _ rootLast _ Post BPlusTree.handler
    (InPhase t) (fun h ho hs => h.handler ho hs) p hp t t₁ a (refl hmax) h
  exact hq.wrote

end Wrote

/-- The methods that a session calls keep to the protocol: they only read, or they insert. -/
lemma follows_of_reads {α : Type} {p : PageM α} (hp : Prog.Only PageOp.Reads p) :
    Prog.Follows rootLast (.adding none) p fun _ _ => True :=
  follows_of_plain (hp.follows (fun _ ho => ⟨ho.plain, fun _ => rfl⟩) fun _ => trivial)
    fun _ => trivial

end BPlusTree

/-! ## Inside a session -/

namespace Session

/-- The tree after `n` requests of the call, or as many as it makes.  Closing a file has not begun
then. -/
def stopped (n : ℕ) (S : Session) : TreeCall → BPlusTree
  | .insert key row => (BPlusTree.insert S.params key row).stopped BPlusTree.handler n S.tree
  | .find key => (BPlusTree.findRow S.params.rowSize key).stopped BPlusTree.handler n S.tree
  | .select minVal maxVal =>
      (BPlusTree.selectRows S.params.rowSize minVal maxVal).stopped BPlusTree.handler n S.tree
  | .getRootPage => BPlusTree.getRootPage.stopped BPlusTree.handler n S.tree
  | .getTotalPage => BPlusTree.getTotalPage.stopped BPlusTree.handler n S.tree
  | .reopen _ _ _ _ => S.tree

/-- The file if the process ends `n` requests into the call. -/
def cut (n : ℕ) (S : Session) (c : TreeCall) : List UInt8 := (S.stopped n c).pager.fd.bytes

variable {S S' : Session} {D D' : Dictionary} {c : TreeCall} {r : TreeReply}

/-- What a call runs, and where it stops. -/
lemma exists_follows (S : Session) (hc : c.isReopen = false) :
    ∃ (α : Type) (p : PageM α) (reply : α → TreeReply),
      Prog.Follows rootLast (.adding none) p (fun _ _ => True) ∧
      (∀ n, S.stopped n c = p.stopped BPlusTree.handler n S.tree) ∧
      S.answer c = S.call p reply := by
  cases c with
  | insert key row =>
      exact ⟨_, _, .status, BPlusTree.follows_insert S.params key row, fun _ => rfl, rfl⟩
  | find key =>
      exact ⟨_, _, fun r => .location r.1 r.2, BPlusTree.follows_of_reads
        (BPlusTree.only_findRow (fun _ ho => ho.reads) S.params.rowSize key), fun _ => rfl, rfl⟩
  | select minVal maxVal =>
      exact ⟨_, _, .rows, BPlusTree.follows_of_reads
        (BPlusTree.only_selectRows (fun _ ho => ho.reads) S.params.rowSize minVal maxVal),
        fun _ => rfl, rfl⟩
  | getRootPage =>
      exact ⟨_, BPlusTree.getRootPage, .number, ⟨trivial, fun _ => trivial⟩, fun _ => rfl, rfl⟩
  | getTotalPage =>
      exact ⟨_, BPlusTree.getTotalPage, .number, ⟨trivial, fun _ => trivial⟩, fun _ => rfl, rfl⟩
  | reopen leafLoad innerNodeLoad counts malloc => cases hc

lemma stopped_wrote (hmax : S.tree.pager.numPages ≤ tableMaxPages) (hc : c.isReopen = false)
    (n : ℕ) : S.tree.Wrote (S.stopped n c) := by
  obtain ⟨α, p, reply, hp, hstopped, -⟩ := S.exists_follows hc
  rw [hstopped]
  exact .stopped hp hmax n

lemma answer_wrote (hmax : S.tree.pager.numPages ≤ tableMaxPages) (hc : c.isReopen = false)
    (h : S.answer c = .ok (r, S')) : S.tree.Wrote S'.tree := by
  obtain ⟨α, p, reply, hp, -, hanswer⟩ := S.exists_follows hc
  rw [hanswer] at h
  obtain ⟨⟨a, t⟩, ht, h⟩ := bind_eq_ok h
  cases h
  exact .run hp hmax ht

/-- A call that is answered adds no fewer pages than it has added so far. -/
lemma stopped_numPages_le (hc : c.isReopen = false) (h : S.answer c = .ok (r, S')) (n : ℕ) :
    (S.stopped n c).pager.numPages ≤ S'.tree.pager.numPages := by
  obtain ⟨α, p, reply, -, hstopped, hanswer⟩ := S.exists_follows hc
  rw [hanswer] at h
  obtain ⟨⟨a, t⟩, ht, h⟩ := bind_eq_ok h
  cases h
  obtain ⟨rest, hrest⟩ := Prog.stopped_resumes ht n
  rw [hstopped]
  exact (BPlusTree.run_grows rest hrest).numPages_le

/-! ## What has been done to the file -/

/-- The session has opened the file, which has `n` pages and names the page `root`, and has not
closed it since; the file names the page `front` now. -/
structure Since (file : List UInt8) (root n front : ℕ) (S : Session) : Prop where
  remains : Remains file front S.tree.pager.numPages S.tree.pager.fd.bytes
  numPages_le : n ≤ S.tree.pager.numPages
  numPages_max : S.tree.pager.numPages ≤ tableMaxPages
  front_lt : front < S.tree.pager.numPages
  front_old : front = root ∨ n ≤ front
  root_lt : S.tree.pager.getRootPage < S.tree.pager.numPages
  root_old : S.tree.pager.getRootPage = root ∨ n ≤ S.tree.pager.getRootPage
  moved : n ≤ front → n ≤ S.tree.pager.getRootPage

variable {file : List UInt8} {root n front : ℕ}

/-- **One method**, or a part of it.  The old root is named as long as no page is added below
another one. -/
lemma Since.wrote (h : S.Since file root n front) {t : BPlusTree} (ht : S.tree.Wrote t) :
    ∃ front', Since file root n front' { S with tree := t } ∧
      (root < n → (front' = root ↔ front = root ∧
        (S.tree.pager.numPages < t.pager.numPages → S.tree.pager.getRootPage = root))) := by
  have hnum := h.numPages_le
  have hle := ht.numPages_le
  have hroot_lt : t.pager.getRootPage < t.pager.numPages := by
    rcases ht.root with heq | ⟨-, hlt⟩
    · rw [heq]
      exact h.root_lt.trans_le hle
    · exact hlt
  have hroot_old : t.pager.getRootPage = root ∨ n ≤ t.pager.getRootPage := by
    rcases ht.root with heq | ⟨hge, -⟩
    · rw [heq]
      exact h.root_old
    · exact Or.inr (hnum.trans hge)
  have hmoved : n ≤ S.tree.pager.getRootPage → n ≤ t.pager.getRootPage := by
    intro hn
    rcases ht.root with heq | ⟨hge, -⟩
    · rw [heq]
      exact hn
    · exact hnum.trans hge
  have hdrop := ht.drop_eq.trans h.remains.drop_eq
  rcases ht.front with ⟨hsame, hbytes⟩ | ⟨hgrown, hfront⟩
  · refine ⟨front, ⟨⟨hdrop, ?_⟩, hnum.trans hle, ht.numPages_max, h.front_lt.trans_le hle,
      h.front_old, hroot_lt, hroot_old, fun hn => hmoved (h.moved hn)⟩, fun _ => ?_⟩
    · show slice t.pager.fd.bytes 0 16 = metaBytes ⟨front, t.pager.numPages⟩
      rw [hsame, hbytes]
      exact h.remains.front_eq
    · exact (and_iff_left fun hlt => absurd hlt (by omega)).symm
  · refine ⟨S.tree.pager.getRootPage, ⟨⟨hdrop, hfront⟩, hnum.trans hle, ht.numPages_max,
      h.root_lt.trans_le hle, h.root_old, hroot_lt, hroot_old, hmoved⟩, fun hlt => ?_⟩
    refine ⟨fun heq => ⟨?_, fun _ => heq⟩, fun hboth => hboth.2 hgrown⟩
    -- a root that has moved does not come back
    rcases h.front_old with hold | hge
    · exact hold
    · have hge' := h.moved hge
      omega

end Session

/-! ## Dictionaries -/

namespace Dictionary

def rootPid (D : Dictionary) : ℕ := pid D.tree.height D.tree.tree

/-- The call adds a page. -/
def AddsPage (D : Dictionary) : TreeCall → Prop
  | .insert key row => key ∉ D.cells.map Prod.fst ∧ D.numPages < (D.put (key, row)).numPages
  | _ => False

instance (D : Dictionary) : DecidablePred D.AddsPage
  | .insert _ _ => inferInstanceAs (Decidable (_ ∧ _))
  | .find _ => isFalse not_false
  | .select _ _ => isFalse not_false
  | .getRootPage => isFalse not_false
  | .getTotalPage => isFalse not_false
  | .reopen _ _ _ _ => isFalse not_false

/-- No page is added below a root other than this one. -/
def KeepsRoot (root : ℕ) (D : Dictionary) (calls : List TreeCall) : Prop :=
  Runs.Along answer (fun D c => D.AddsPage c → D.rootPid = root) calls D

instance (root : ℕ) (D : Dictionary) (calls : List TreeCall) : Decidable (D.KeepsRoot root calls) :=
  Runs.Along.decidable calls D

variable {D D' : Dictionary} {c : TreeCall} {r : TreeReply}

lemma addsPage_iff (hc : c.isReopen = false) (h : D.answer c = .ok (r, D')) :
    D.AddsPage c ↔ D.numPages < D'.numPages := by
  rcases answer_cases h with ⟨key, row, rfl, hne, -, -, rfl⟩ | ⟨_, _, _, _, rfl, -⟩ | ⟨rfl, hins⟩
  · exact and_iff_right hne
  · cases hc
  · refine iff_of_false ?_ (lt_irrefl _)
    cases c with
    | insert key row => exact fun hadds => hadds.1 (hins key row rfl).1
    | find key => exact not_false
    | select minVal maxVal => exact not_false
    | getRootPage => exact not_false
    | getTotalPage => exact not_false
    | reopen leafLoad innerNodeLoad counts malloc => exact not_false

lemma addsPage_of_error {e : Fault} (hmax : D.numPages ≤ tableMaxPages)
    (h : D.answer c = .error e) : D.AddsPage c := by
  cases c with
  | insert key row =>
      simp only [answer] at h
      split_ifs at h with hmem hroom
      exact ⟨hmem, by omega⟩
  | find key => cases h
  | select minVal maxVal => cases h
  | getRootPage => cases h
  | getTotalPage => cases h
  | reopen leafLoad innerNodeLoad counts malloc => cases h

end Dictionary

/-! ## Runs -/

namespace Session

variable {S S' : Session} {D D' : Dictionary} {c : TreeCall} {r : TreeReply} {file : List UInt8}
  {root n front : ℕ}

lemma Mirrors.numPages_eq (h : S.Mirrors D) :
    S.tree.pager.numPages = D.numPages ∧ D.numPages ≤ tableMaxPages := by
  obtain ⟨s, hs⟩ := h
  rw [hs.represents.pager.numPages_eq, ← hs.numPages]
  exact ⟨rfl, hs.stores.numPages_le⟩

lemma Mirrors.getRootPage_eq (h : S.Mirrors D) : S.tree.pager.getRootPage = D.rootPid := by
  obtain ⟨s, hs⟩ := h
  rw [hs.represents.pager.getRootPage_eq, hs.stores.rootPid, Dictionary.rootPid]

/-- **The process ends inside a call.** -/
lemma Since.stopped (h : S.Since file root n front) (hD : S.Mirrors D) (hc : c.isReopen = false)
    (hadmits : D.Admits c) (i : ℕ) :
    ∃ front', Since file root n front' { S with tree := S.stopped i c } ∧
      (root < n → (front' = root → front = root) ∧
        (front = root → (D.AddsPage c → D.rootPid = root) → front' = root)) := by
  obtain ⟨hnum, hmax⟩ := hD.numPages_eq
  obtain ⟨front', hsince, hiff⟩ := h.wrote (stopped_wrote h.numPages_max hc i)
  refine ⟨front', hsince, fun hroot => ⟨fun heq => ((hiff hroot).mp heq).1, ?_⟩⟩
  intro hfront hadds
  refine (hiff hroot).mpr ⟨hfront, fun hlt => ?_⟩
  rw [hD.getRootPage_eq]
  refine hadds ?_
  -- the pages that it has added so far it has in the end
  have hagree := hD.answer hadmits
  cases hanswer : D.answer c with
  | error e => exact Dictionary.addsPage_of_error hmax hanswer
  | ok p =>
      obtain ⟨r, D'⟩ := p
      rw [hanswer] at hagree
      obtain ⟨S', hS', hD'⟩ := hagree.exists_ok
      have hle := stopped_numPages_le hc hS' i
      rw [hD'.numPages_eq.1] at hle
      rw [Dictionary.addsPage_iff hc hanswer]
      omega

/-- **A run.** -/
lemma Since.runCalls {calls : List TreeCall} {replies : List TreeReply}
    (h : S.Since file root n front) (hD : S.Mirrors D) (hadmits : D.AdmitsAll calls)
    (hcalls : ∀ c ∈ calls, c.isReopen = false) (hrun : S.runCalls calls = .ok (replies, S')) :
    ∃ D' front', D.runCalls calls = .ok (replies, D') ∧ S'.Mirrors D' ∧
      S'.Since file root n front' ∧
      (root < n → (front' = root ↔ front = root ∧ D.KeepsRoot root calls)) := by
  induction calls generalizing S D front replies with
  | nil =>
      cases hrun
      exact ⟨D, front, rfl, hD, h, fun _ => (and_iff_left trivial).symm⟩
  | cons c calls ih =>
      obtain ⟨r, S₁, rs, hS₁, hrest, rfl⟩ := Runs.runAll_cons_eq_ok hrun
      have hc := hcalls c List.mem_cons_self
      have hagree := hD.answer hadmits.1
      rw [hS₁] at hagree
      obtain ⟨D₁, hD₁, hmirrors⟩ := hagree.exists_ok'
      obtain ⟨front₁, hsince, hiff⟩ := h.wrote (answer_wrote h.numPages_max hc hS₁)
      have hsince₁ : S₁.Since file root n front₁ := ⟨hsince.remains, hsince.numPages_le,
        hsince.numPages_max, hsince.front_lt, hsince.front_old, hsince.root_lt, hsince.root_old,
        hsince.moved⟩
      obtain ⟨D', front', hrunD, hmirrors', hsince', hiff'⟩ := ih hsince₁ hmirrors
        (hadmits.2 r D₁ hD₁) (fun d hd => hcalls d (List.mem_cons_of_mem _ hd)) hrest
      refine ⟨D', front', ?_, hmirrors', hsince', fun hroot => ?_⟩
      · rw [Dictionary.runCalls, Runs.runAll_cons_of_ok hD₁]
        exact congrArg (Except.map _) hrunD
      · have hadds := Dictionary.addsPage_iff hc hD₁
        rw [hD.numPages_eq.1, hD.getRootPage_eq, hmirrors.numPages_eq.1, ← hadds] at hiff
        rw [hiff' hroot, hiff hroot, and_assoc]
        refine and_congr_right fun _ => and_congr_right fun _ => ⟨fun hall r' t ht => ?_, ?_⟩
        · cases hD₁.symm.trans ht
          exact hall
        · exact fun hall => hall r D₁ hD₁

lemma Since.recovers (h : S.Since file D.rootPid D.numPages D.rootPid) (hsaved : Saved file D) :
    Recovers S.tree.pager.fd.bytes D :=
  Remains.recovers hsaved h.remains h.numPages_le h.numPages_max

lemma Since.lost (h : S.Since file root n front) (hfront : n ≤ front)
    (hlen : file.length ≤ pageStart n) : Lost S.tree.pager.fd.bytes := by
  refine h.remains.lost h.front_lt h.numPages_max (hlen.trans ?_)
  simp only [pageStart, pageSize]
  omega

/-! ## The length of the file -/

/-- The file is no longer than its pages need. -/
def Snug (S : Session) : Prop :=
  S.tree.pager.fd.bytes.length ≤ pageStart S.tree.pager.numPages

lemma length_of_grows {t t' : BPlusTree} (h : t.Grows t') :
    t'.pager.fd.bytes.length ≤ max 16 t.pager.fd.bytes.length := by
  have hdrop := congrArg List.length h.drop_eq
  rw [List.length_drop, List.length_drop] at hdrop
  omega

lemma sixteen_le_pageStart (id : ℕ) : 16 ≤ pageStart id := by
  simp only [pageStart, BtreeMetaData.getDataSize]
  omega

lemma Snug.of_grows (h : S.Snug) (hgrows : S.tree.Grows S'.tree) : S'.Snug := by
  have hlen := length_of_grows hgrows
  have hnum := hgrows.numPages_le
  have hstart := sixteen_le_pageStart S'.tree.pager.numPages
  rw [Snug] at h ⊢
  simp only [pageStart, pageSize] at h hlen hstart ⊢
  omega

lemma create_snug {P : TreeParams} {file : Option (List UInt8)} {counts : ℕ → ℕ}
    {malloc : ℕ → Page} (h : create P file counts malloc = .ok S) : S.Snug := by
  obtain ⟨t, ht, h⟩ := bind_eq_ok h
  cases h
  obtain ⟨p, hp, ht⟩ := bind_eq_ok ht
  obtain ⟨⟨_, t'⟩, hrun, ht⟩ := bind_eq_ok ht
  cases ht
  cases hp
  refine (length_of_grows (BPlusTree.run_grows _ hrun)).trans ?_
  exact max_le (sixteen_le_pageStart _) (Nat.zero_le _)

/-- **One call** makes the file no longer. -/
lemma Snug.answer (h : S.Snug) (hD : S.Mirrors D) (hadmits : D.Admits c)
    (hanswer : S.answer c = .ok (r, S')) : S'.Snug := by
  cases hreopen : c.isReopen with
  | false => exact h.of_grows (answer_grows hreopen hanswer)
  | true =>
      cases c with
      | reopen leafLoad innerNodeLoad counts malloc =>
          obtain ⟨s, hs⟩ := hD
          obtain ⟨S'', hS'', hsim⟩ := hs.reopen hadmits
          cases hanswer.symm.trans hS''
          obtain ⟨file, hfile, hanswer⟩ := bind_eq_ok hanswer
          obtain ⟨t, ht, hanswer⟩ := bind_eq_ok hanswer
          cases hanswer
          obtain ⟨p, hp, ht⟩ := bind_eq_ok ht
          obtain ⟨⟨_, t'⟩, hrun, ht⟩ := bind_eq_ok ht
          cases ht
          have hnum := hs.represents.pager.numPages_eq
          have hnum' : t.pager.numPages = s.map.numPages := hsim.represents.pager.numPages_eq
          have hlen := BTreePager.destroy_length hs.represents.pager (hnum ▸ h) hfile
          have hgrows := length_of_grows (BPlusTree.run_grows _ hrun)
          have hbytes : p.fd.bytes = file := BTreePager.new_open_file hp
          show _ ≤ pageStart t.pager.numPages
          rw [hnum']
          refine hgrows.trans (max_le (sixteen_le_pageStart _) ?_)
          show p.fd.bytes.length ≤ _
          rw [hbytes]
          exact hlen
      | insert key row => cases hreopen
      | find key => cases hreopen
      | select minVal maxVal => cases hreopen
      | getRootPage => cases hreopen
      | getTotalPage => cases hreopen

lemma Snug.runCalls {calls : List TreeCall} {replies : List TreeReply} (h : S.Snug)
    (hD : S.Mirrors D) (hadmits : D.AdmitsAll calls)
    (hrun : S.runCalls calls = .ok (replies, S')) :
    S'.Snug ∧ ∃ D', D.runCalls calls = .ok (replies, D') ∧ S'.Mirrors D' := by
  have hagree := runCalls_agrees hD hadmits
  rw [hrun] at hagree
  obtain ⟨D', hD', hmirrors⟩ := hagree.exists_ok'
  refine ⟨?_, D', hD', hmirrors⟩
  have halong : Runs.Along Session.answer (fun S c => ∀ D, S.Mirrors D → D.Admits c) calls S :=
    along_of_dictionary hD hadmits hadmits
  have hinv := @Runs.runAll_preserves _ _ _ _ _ (fun S => S.Snug ∧ ∃ D, S.Mirrors D) _ ?_ _ _ _ _
    ⟨h, D, hD⟩ halong hrun
  · exact hinv.1
  · rintro c S r S₁ ⟨hsnug, D, hD⟩ hmeets hanswer
    have hadmits := hmeets D hD
    have hagree := hD.answer hadmits
    rw [hanswer] at hagree
    obtain ⟨D₁, -, hmirrors⟩ := hagree.exists_ok'
    exact ⟨hsnug.answer hD hadmits hanswer, D₁, hmirrors⟩

/-- A closed file, opened again. -/
lemma Untouched.since (h : S.Untouched file D) : S.Since file D.rootPid D.numPages D.rootPid := by
  obtain ⟨s, hs⟩ := h
  obtain ⟨hnum, hmax⟩ := Mirrors.numPages_eq ⟨s, hs.simulates⟩
  have hroot := Mirrors.getRootPage_eq ⟨s, hs.simulates⟩
  have hlt : D.rootPid < D.numPages := by
    have hlt := hs.simulates.stores.lt_numPages _ (pid_mem_pids _ _)
    rwa [hs.simulates.numPages] at hlt
  refine ⟨⟨by rw [hs.bytes_eq], ?_⟩, hnum.ge, hnum ▸ hmax, hnum.symm ▸ hlt, Or.inl rfl,
    by rw [hroot, hnum]; exact hlt, Or.inl hroot, fun hle => absurd hle (by omega)⟩
  rw [hs.bytes_eq, hs.front, hnum, hs.simulates.stores.rootPid, hs.simulates.numPages]
  rfl

/-- A new file, before it is closed for the first time. -/
lemma create_since {P : TreeParams} (hP : P.Valid) {file : Option (List UInt8)} {counts : ℕ → ℕ}
    {malloc : ℕ → Page} (h : create P file counts malloc = .ok S) : S.Since [] 0 0 0 := by
  obtain ⟨S₀, hS₀, hmirrors⟩ := create_mirrors hP file counts malloc
  cases h.symm.trans hS₀
  obtain ⟨hnum, hmax⟩ := hmirrors.numPages_eq
  obtain ⟨t, ht, h⟩ := bind_eq_ok h
  cases h
  obtain ⟨p, hp, ht⟩ := bind_eq_ok ht
  obtain ⟨⟨_, t'⟩, hrun, ht⟩ := bind_eq_ok ht
  cases ht
  cases hp
  have hwrote := BPlusTree.Wrote.run (BPlusTree.follows_init_create P) (Nat.zero_le _) hrun
  have hfront := hwrote.front.resolve_left fun h => Nat.one_ne_zero (hnum.symm.trans h.1)
  have hroot : t.pager.getRootPage < t.pager.numPages := by
    rcases hwrote.root with heq | ⟨-, hlt⟩
    · rw [heq]
      exact hfront.1
    · exact hlt
  exact ⟨⟨hwrote.drop_eq, hfront.2⟩, Nat.zero_le _, hwrote.numPages_max, hfront.1, Or.inl rfl,
    hroot, Or.inr (Nat.zero_le _), fun _ => Nat.zero_le _⟩

end Session

/-- **A file whose session ends without closing it.**  A tree is created, used and closed; its file
is opened with any loads, used, and the process ends `i` requests into some call.

The pages in the file are those of the time when it was closed.  If no page was added under a new
root, the file opens, and every key, row and range of that time is found.  If one was, by a call
that was answered, the file does not open any more.  There is nothing in between. -/
theorem interrupted_session {P : TreeParams} (hP : P.Valid) {file₀ : Option (List UInt8)}
    {counts₀ : ℕ → ℕ} {malloc₀ : ℕ → Page} {S₀ S : Session} {before : List TreeCall}
    {replies : List TreeReply} (hcreate : Session.create P file₀ counts₀ malloc₀ = .ok S₀)
    (hbefore : (Dictionary.create P).AdmitsAll before)
    (hrun : S₀.runCalls before = .ok (replies, S)) :
    ∃ D file, (Dictionary.create P).runCalls before = .ok (replies, D) ∧
      S.tree.destroy = .ok file ∧
      ∀ leafLoad innerNodeLoad, leafLoad % 2 = 0 ∧ 0 < leafLoad →
        innerNodeLoad % 2 = 0 ∧ 0 < innerNodeLoad → ∀ counts malloc, ∃ S₁,
        Session.load (D.withLoads leafLoad innerNodeLoad).params file counts malloc = .ok S₁ ∧
        ∀ calls c, (∀ d ∈ calls ++ [c], d.isReopen = false) →
          (D.withLoads leafLoad innerNodeLoad).AdmitsAll (calls ++ [c]) →
          ∀ replies' S₂, S₁.runCalls calls = .ok (replies', S₂) → ∀ i,
            (S₂.cut i c).drop 16 = file.drop 16 ∧
            ((D.withLoads leafLoad innerNodeLoad).KeepsRoot D.rootPid (calls ++ [c]) →
              Recovers (S₂.cut i c) D) ∧
            (¬(D.withLoads leafLoad innerNodeLoad).KeepsRoot D.rootPid calls →
              Lost (S₂.cut i c)) ∧
            (Recovers (S₂.cut i c) D ∨ Lost (S₂.cut i c)) := by
  obtain ⟨hsnug, D, hD, hmirrors⟩ := (Session.create_snug hcreate).runCalls
    (mirrors_of_create hP hcreate) hbefore hrun
  obtain ⟨file, hdestroy, hsaved⟩ := hmirrors.exists_saved
  refine ⟨D, file, hD, hdestroy, fun leafLoad innerNodeLoad hleaf hinner counts malloc => ?_⟩
  obtain ⟨S₁, hload, huntouched⟩ := hsaved.load_untouched hleaf hinner counts malloc
  refine ⟨S₁, hload, fun calls c hopen hadmits replies' S₂ hcalls i => ?_⟩
  set D₁ := D.withLoads leafLoad innerNodeLoad with hD₁
  have hlen : file.length ≤ pageStart D.numPages := by
    obtain ⟨s, hs⟩ := hmirrors
    have hnum := hs.represents.pager.numPages_eq
    have hdest := BTreePager.destroy_length hs.represents.pager (hnum ▸ hsnug) hdestroy
    rwa [hs.numPages] at hdest
  have hsince : S₁.Since file D.rootPid D.numPages D.rootPid := huntouched.since
  have hroot : D.rootPid < D.numPages := by
    have hlt := hsince.front_lt
    obtain ⟨s, hs⟩ := huntouched
    rw [(Session.Mirrors.numPages_eq ⟨s, hs.simulates⟩).1] at hlt
    exact hlt
  have hmirrors₁ : S₁.Mirrors D₁ := by
    obtain ⟨s, hs⟩ := huntouched
    exact ⟨s, hs.simulates⟩
  have hcalls_open : ∀ d ∈ calls, d.isReopen = false := fun d hd =>
    hopen d (List.mem_append_left _ hd)
  have hc : c.isReopen = false := hopen c (List.mem_append_right _ List.mem_cons_self)
  have hadmits₁ : D₁.AdmitsAll calls := hadmits.of_append
  obtain ⟨D₂, front, hrunD, hmirrors₂, hsince₂, hfront⟩ :=
    hsince.runCalls hmirrors₁ hadmits₁ hcalls_open hcalls
  have hadmits₂ := ((Runs.along_append_of_ok hrunD).mp hadmits).2
  obtain ⟨front', hsince', hfront'⟩ := hsince₂.stopped hmirrors₂ hc hadmits₂.1 i
  have hrecovers : front' = D.rootPid → Recovers (S₂.cut i c) D := by
    rintro rfl
    exact hsince'.recovers hsaved
  have hlost : D.numPages ≤ front' → Lost (S₂.cut i c) := fun hle => hsince'.lost hle hlen
  refine ⟨hsince'.remains.drop_eq, fun hkeeps => ?_, fun hkeeps => ?_, ?_⟩
  · obtain ⟨hkeeps₁, hkeeps₂⟩ := (Runs.along_append_of_ok hrunD).mp hkeeps
    exact hrecovers ((hfront' hroot).2 ((hfront hroot).mpr ⟨rfl, hkeeps₁⟩) hkeeps₂.1)
  · refine hlost (hsince'.front_old.resolve_left fun heq => hkeeps ?_)
    exact ((hfront hroot).mp ((hfront' hroot).1 heq)).2
  · exact hsince'.front_old.imp hrecovers hlost

/-- The calls are answered as by the dictionary. -/
lemma Session.Untouched.exists_runCalls {S : Session} {D D' : Dictionary} {file : List UInt8}
    (h : S.Untouched file D) {calls : List TreeCall} {replies : List TreeReply}
    (hadmits : D.AdmitsAll calls) (hrun : D.runCalls calls = .ok (replies, D')) :
    ∃ S', S.runCalls calls = .ok (replies, S') := by
  obtain ⟨s, hs⟩ := h
  have hagree := Session.runCalls_agrees ⟨s, hs.simulates⟩ hadmits
  rw [hrun] at hagree
  obtain ⟨S', hS', -⟩ := hagree.exists_ok
  exact ⟨S', hS'⟩

/-- Two rows more split the root, and two more another leaf.  If the process ends in between, the
row that was there before is found, and afterwards it is lost with the others. -/
theorem interrupted_session_small : ∃ D file S₁ S₂ S₃ replies₂ replies₃,
    Session.load (D.withLoads 2 2).params file (fun _ => 0) (fun _ => Page.filled 9) = .ok S₁ ∧
      S₁.runCalls [.insert 6 [2], .insert 7 [3]] = .ok (replies₂, S₂) ∧
      Recovers (S₂.cut 0 .getRootPage) D ∧
      S₁.runCalls [.insert 6 [2], .insert 7 [3], .insert 8 [4], .insert 9 [5]]
        = .ok (replies₃, S₃) ∧ Lost (S₃.cut 0 .getRootPage) := by
  obtain ⟨S₀, hcreate, hmirrors⟩ := Session.create_mirrors smallParams_valid none (fun _ => 0)
    fun _ => Page.filled 7
  have hbefore : (Dictionary.create smallParams).AdmitsAll [.insert 5 [1]] := by decide
  have hone : (Dictionary.create smallParams).runCalls [.insert 5 [1]]
      = .ok ([.status .success], oneRow) := rfl
  have hagree := Session.runCalls_agrees hmirrors hbefore
  rw [hone] at hagree
  obtain ⟨S, hrun, hmirrors'⟩ := hagree.exists_ok
  obtain ⟨D, file, hD, hdestroy, hall⟩ := interrupted_session smallParams_valid hcreate hbefore hrun
  cases hone.symm.trans hD
  obtain ⟨S₁, hload, hcut⟩ := hall 2 2 (by decide) (by decide) (fun _ => 0) fun _ => Page.filled 9
  obtain ⟨S₁', hload', huntouched⟩ := @Saved.load_untouched file oneRow ⟨S, hmirrors', hdestroy⟩ 2 2
    (by decide) (by decide) (fun _ => 0) fun _ => Page.filled 9
  cases hload.symm.trans hload'
  obtain ⟨S₂, hS₂⟩ := huntouched.exists_runCalls
    (show (oneRow.withLoads 2 2).AdmitsAll [.insert 6 [2], .insert 7 [3]] by decide) rfl
  obtain ⟨S₃, hS₃⟩ := huntouched.exists_runCalls (show (oneRow.withLoads 2 2).AdmitsAll
    [.insert 6 [2], .insert 7 [3], .insert 8 [4], .insert 9 [5]] by decide) rfl
  refine ⟨oneRow, file, S₁, S₂, S₃, _, _, hload, hS₂, ?_, hS₃, ?_⟩
  · exact (hcut _ .getRootPage (by decide) (by decide) _ S₂ hS₂ 0).2.1 (by decide)
  · exact (hcut _ .getRootPage (by decide) (by decide) _ S₃ hS₃ 0).2.2.1 (by decide)

/-- **A database that was never closed** cannot be opened, wherever its process ended. -/
theorem unsaved_database_lost {P : TreeParams} (hP : P.Valid) {file₀ : Option (List UInt8)}
    {counts : ℕ → ℕ} {malloc : ℕ → Page} {S₀ S : Session} {calls : List TreeCall} {c : TreeCall}
    {replies : List TreeReply} (hcreate : Session.create P file₀ counts malloc = .ok S₀)
    (hopen : ∀ d ∈ calls ++ [c], d.isReopen = false)
    (hadmits : (Dictionary.create P).AdmitsAll calls)
    (hrun : S₀.runCalls calls = .ok (replies, S)) (i : ℕ) : Lost (S.cut i c) := by
  have hcalls_open : ∀ d ∈ calls, d.isReopen = false := fun d hd =>
    hopen d (List.mem_append_left _ hd)
  have hc : c.isReopen = false := hopen c (List.mem_append_right _ List.mem_cons_self)
  obtain ⟨D, front, -, -, hsince, -⟩ := (Session.create_since hP hcreate).runCalls
    (mirrors_of_create hP hcreate) hadmits hcalls_open hrun
  obtain ⟨front', hsince', -⟩ := hsince.wrote (Session.stopped_wrote hsince.numPages_max hc i)
  exact hsince'.lost (Nat.zero_le _) (Nat.zero_le _)

theorem unsaved_database_lost_small : ∃ S₀ replies S,
    Session.create smallParams none (fun _ => 0) (fun _ => Page.filled 7) = .ok S₀ ∧
      S₀.runCalls [.insert 5 [1], .find 5] = .ok (replies, S) ∧
      Lost (S.cut 3 (.insert 6 [2])) := by
  obtain ⟨S₀, hcreate, hmirrors⟩ := Session.create_mirrors smallParams_valid none (fun _ => 0)
    fun _ => Page.filled 7
  have hadmits : (Dictionary.create smallParams).AdmitsAll [.insert 5 [1], .find 5] := by decide
  have hagree := Session.runCalls_agrees hmirrors hadmits
  cases hrun : (Dictionary.create smallParams).runCalls [.insert 5 [1], .find 5] with
  | error e => cases hrun
  | ok p =>
      rw [hrun] at hagree
      obtain ⟨S, hS, -⟩ := hagree.exists_ok
      exact ⟨S₀, p.1, S, hcreate, hS,
        unsaved_database_lost smallParams_valid hcreate (by decide) hadmits hS 3⟩

end DbToy
