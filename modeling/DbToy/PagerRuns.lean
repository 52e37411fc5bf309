import DbToy.PageMap
import DbToy.Lib.Runs

/-!
# Runs of a pager

`PagerCall` is what a client may do with a pager, in any order: besides the operations themselves,
write into a page through the pointer it has, and destroy the pager and open the file again.
`BTreePager.answer` is what the pager does, `PageMap.answer` what a page map does, where a call
outside the contract (an id that no page has, a page beyond `TABLE_MAX_PAGES`) has no answer.

`runCalls_simulates` is the induction over a run.
-/

namespace DbToy

inductive PagerCall where
  | allocatePage
  | getPage (id : ℕ)
  | writePage (id : ℕ) (page : Page)
  | flushPage (id : ℕ)
  | setRootPage (id : ℕ)
  /-- Destroy the pager and open the file with mode 'o'; `counts` is for the new descriptor. -/
  | reopen (counts : ℕ → ℕ)

/-- What a call returns to the client. -/
inductive PagerReply where
  | newPage (id : ℕ) (page : Page)
  | page (page : Page)
  | done

section

variable (malloc : ℕ → Page)

namespace BTreePager

def answer : PagerCall → BTreePager → Except Fault (PagerReply × BTreePager)
  | .allocatePage, p => do
      let (new, p) ← allocatePage malloc p
      .ok (.newPage new.1 new.2, p)
  | .getPage id, p => do
      let (page, p) ← getPage malloc p id
      .ok (.page page, p)
  | .writePage id page, p => do
      let p ← writePage malloc p id page
      .ok (.done, p)
  | .flushPage id, p => do
      let p ← flushPage p id
      .ok (.done, p)
  | .setRootPage id, p => .ok (.done, p.setRootPage id)
  | .reopen counts, p => do
      let file ← p.destroy
      let p ← new (some file) 'o' counts
      .ok (.done, p)

def runCalls : List PagerCall → BTreePager → Except Fault (List PagerReply × BTreePager) :=
  Runs.runAll (answer malloc)

end BTreePager

namespace PageMap

/-- The map of a file that has just been created. -/
def empty : PageMap := ⟨0, 0, fun _ => Page.filled 0⟩

/-- The page map's answer to a call that keeps the contract. -/
def answer : PagerCall → PageMap → Option (PagerReply × PageMap)
  | .allocatePage, m =>
      if m.numPages < tableMaxPages then
        some (.newPage m.numPages (malloc m.numPages), m.allocate (malloc m.numPages))
      else none
  | .getPage id, m => if id < m.numPages then some (.page (m.content id), m) else none
  | .writePage id page, m => if id < m.numPages then some (.done, m.write id page) else none
  | .flushPage id, m => if id < m.numPages then some (.done, m) else none
  | .setRootPage id, m => if id < 2 ^ 64 then some (.done, m.setRootPage id) else none
  | .reopen _, m => some (.done, m)

def runCalls : List PagerCall → PageMap → Option (List PagerReply × PageMap)
  | [], m => some ([], m)
  | c :: cs, m => do
      let (r, m) ← answer malloc c m
      let (rs, m) ← runCalls cs m
      some (r :: rs, m)

end PageMap

variable {malloc}

lemma pageId_of_lt_numPages {p : BTreePager} {m : PageMap} (h : p.Represents m) {id : ℕ}
    (hid : id < m.numPages) : pageId id = id := by
  have hle := h.numPages_le
  simp only [tableMaxPages] at hle
  exact pageId_of_lt (by omega)

lemma new_create_represents (file : Option (List UInt8)) (counts : ℕ → ℕ) :
    ∃ p, BTreePager.new file 'c' counts = .ok p ∧ p.Represents PageMap.empty :=
  ⟨_, rfl, rfl, Nat.zero_le _, by decide, fun _ h => absurd h (Nat.not_lt_zero _)⟩

/-- One call: the pager answers as the map does, and still represents it. -/
lemma answer_represents {p : BTreePager} {m m' : PageMap} {c : PagerCall} {r : PagerReply}
    (h : p.Represents m) (hc : PageMap.answer malloc c m = some (r, m')) :
    ∃ p', BTreePager.answer malloc c p = .ok (r, p') ∧ p'.Represents m' := by
  cases c with
  | allocatePage =>
      simp only [PageMap.answer] at hc
      split_ifs at hc with hroom
      simp only [Option.some.injEq, Prod.mk.injEq] at hc
      obtain ⟨rfl, rfl⟩ := hc
      obtain ⟨p', e, h'⟩ := @BTreePager.allocatePage_represents malloc p m h hroom
      exact ⟨p', by simp only [BTreePager.answer, e, ok_bind], h'⟩
  | getPage id =>
      simp only [PageMap.answer] at hc
      split_ifs at hc with hid
      simp only [Option.some.injEq, Prod.mk.injEq] at hc
      obtain ⟨rfl, rfl⟩ := hc
      have hp := pageId_of_lt_numPages h hid
      obtain ⟨p', e, h', -⟩ := @BTreePager.getPage_represents malloc p m h id (by rw [hp]; exact hid)
      rw [hp] at e
      exact ⟨p', by simp only [BTreePager.answer, e, ok_bind], h'⟩
  | writePage id page =>
      simp only [PageMap.answer] at hc
      split_ifs at hc with hid
      simp only [Option.some.injEq, Prod.mk.injEq] at hc
      obtain ⟨rfl, rfl⟩ := hc
      have hp := pageId_of_lt_numPages h hid
      obtain ⟨p', e, h'⟩ :=
        @BTreePager.writePage_represents malloc p m h id (by rw [hp]; exact hid) page
      rw [hp] at h'
      exact ⟨p', by simp only [BTreePager.answer, e, ok_bind], h'⟩
  | flushPage id =>
      simp only [PageMap.answer] at hc
      split_ifs at hc with hid
      simp only [Option.some.injEq, Prod.mk.injEq] at hc
      obtain ⟨rfl, rfl⟩ := hc
      obtain ⟨p', e, h'⟩ := BTreePager.flushPage_represents h hid
      exact ⟨p', by simp only [BTreePager.answer, e, ok_bind], h'⟩
  | setRootPage id =>
      simp only [PageMap.answer] at hc
      split_ifs at hc with hid
      simp only [Option.some.injEq, Prod.mk.injEq] at hc
      obtain ⟨rfl, rfl⟩ := hc
      exact ⟨_, rfl, BTreePager.setRootPage_represents h hid⟩
  | reopen counts =>
      simp only [PageMap.answer, Option.some.injEq, Prod.mk.injEq] at hc
      obtain ⟨rfl, rfl⟩ := hc
      obtain ⟨file, p', e, e', h'⟩ := BTreePager.reopen_represents h counts
      exact ⟨p', by simp only [BTreePager.answer, e, e', ok_bind], h'⟩

/-- A whole run, if the pager keeps up with the map call by call. -/
lemma runCalls_simulates {Rel : BTreePager → PageMap → Prop}
    (step : ∀ c p m r m', Rel p m → PageMap.answer malloc c m = some (r, m') →
      ∃ p', BTreePager.answer malloc c p = .ok (r, p') ∧ Rel p' m') :
    ∀ (calls : List PagerCall) {p : BTreePager} {m m' : PageMap} {rs : List PagerReply}, Rel p m →
      PageMap.runCalls malloc calls m = some (rs, m') →
      ∃ p', BTreePager.runCalls malloc calls p = .ok (rs, p') ∧ Rel p' m'
  | [], p, m, m', rs, h, hr => by
      simp only [PageMap.runCalls, Option.some.injEq, Prod.mk.injEq] at hr
      obtain ⟨rfl, rfl⟩ := hr
      exact ⟨p, rfl, h⟩
  | c :: cs, p, m, m', rs, h, hr => by
      simp only [PageMap.runCalls, Option.bind_eq_bind, Option.bind_eq_some_iff, Prod.exists,
        Option.some.injEq, Prod.mk.injEq] at hr
      obtain ⟨r, m₁, hc, rs', m₂, hcs, rfl, rfl⟩ := hr
      obtain ⟨p₁, e₁, h₁⟩ := step c p m r m₁ h hc
      obtain ⟨p₂, e₂, h₂⟩ := runCalls_simulates step cs h₁ hcs
      refine ⟨p₂, ?_, h₂⟩
      rw [BTreePager.runCalls] at e₂ ⊢
      rw [Runs.runAll_cons_of_ok e₁, e₂]
      rfl

end

/-- **A pager is a persistent page map.**  Started from a new file, every sequence of calls within
the contract is answered as the map answers it: `get_page` gives the page last written, whatever
was flushed, reloaded, allocated or reopened in between, a write changes one page only, and
neither the short-read assertion nor any other check fails.  At the end the page count, the root
id and every page are the map's. -/
theorem pager_refines_pageMap (malloc : ℕ → Page) (file : Option (List UInt8)) (counts : ℕ → ℕ)
    (calls : List PagerCall) (replies : List PagerReply) (m : PageMap)
    (h : PageMap.runCalls malloc calls PageMap.empty = some (replies, m)) :
    ∃ p₀ p, BTreePager.new file 'c' counts = .ok p₀ ∧
      BTreePager.runCalls malloc calls p₀ = .ok (replies, p) ∧
      p.numPages = m.numPages ∧ p.getRootPage = m.rootPid ∧
      ∀ id < m.numPages, ∃ p', BTreePager.getPage malloc p id = .ok (m.content id, p') := by
  obtain ⟨p₀, e₀, h₀⟩ := new_create_represents file counts
  obtain ⟨p, e, h'⟩ := runCalls_simulates (fun _ _ _ _ _ => answer_represents) calls h₀ h
  refine ⟨p₀, p, e₀, e, h'.numPages_eq, h'.getRootPage_eq, ?_⟩
  intro id hid
  have hp := pageId_of_lt_numPages h' hid
  obtain ⟨p', e', -⟩ := @BTreePager.getPage_represents malloc p m h' id (by rw [hp]; exact hid)
  rw [hp] at e'
  exact ⟨p', e'⟩

/-- Three pages, the last one flushed first, then the file reopened with one byte for each
transfer: page 0 still has what was written to it. -/
theorem pager_refines_pageMap_reopened :
    ∃ p₀ p, BTreePager.new none 'c' (fun _ => 1) = .ok p₀ ∧
      BTreePager.runCalls (fun _ => Page.filled 9)
        [.allocatePage, .allocatePage, .allocatePage, .writePage 0 (Page.filled 7), .flushPage 2,
          .setRootPage 1, .reopen (fun _ => 1), .getPage 0] p₀
        = .ok ([.newPage 0 (Page.filled 9), .newPage 1 (Page.filled 9),
            .newPage 2 (Page.filled 9), .done, .done, .done, .done, .page (Page.filled 7)], p) ∧
      p.numPages = 3 ∧ p.getRootPage = 1 := by
  obtain ⟨p₀, p, e₀, e, hn, hr, -⟩ := pager_refines_pageMap (fun _ => Page.filled 9) none
    (fun _ => 1) [.allocatePage, .allocatePage, .allocatePage, .writePage 0 (Page.filled 7),
      .flushPage 2, .setRootPage 1, .reopen (fun _ => 1), .getPage 0] _ _ rfl
  exact ⟨p₀, p, e₀, e, hn, hr⟩

end DbToy
