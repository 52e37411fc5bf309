import DbToy.BPlusTree

/-!
# The tree's requests on a page map

`TreeImage` is what a B+ tree works on when cache and file are left out: a page map, the root
pointer, and what `malloc` will hand out.  `TreeImage.handler` answers the tree's requests from
it, and a tree on a pager that represents the page map answers every request alike
(`handler_agrees`), hence runs every program alike (`run_agrees`).

The pager frees its pages in the destructor only: a page that has been read once stays where it
is, which is why a pointer can be modelled by the id of its page.
-/

namespace DbToy

structure TreeImage where
  map : PageMap
  root : Option ℕ
  malloc : ℕ → Page

namespace TreeImage

/-- The requests answered by the page map. -/
def handler : Handler PageOp PageOp.Ans Fault TreeImage
  | .getPage id, s =>
      if pageId id < s.map.numPages then .ok (s.map.content (pageId id), s)
      else .error (.exitFailure "page_id greater than capacity")
  | .writePage id page, s =>
      if pageId id < s.map.numPages then
        .ok ((), { s with map := s.map.write (pageId id) page })
      else .error (.exitFailure "page_id greater than capacity")
  | .allocatePage, s =>
      if s.map.numPages < tableMaxPages then
        .ok ((s.map.numPages, s.malloc s.map.numPages),
          { s with map := s.map.allocate (s.malloc s.map.numPages) })
      else .error (.pageIndex tableMaxPages)
  | .getRootPage, s => .ok (s.map.rootPid, s)
  | .setRootPage id, s => .ok ((), { s with map := s.map.setRootPage (id % 2 ^ 64) })
  | .numPages, s => .ok (s.map.numPages, s)
  | .getRoot, s => .ok (s.root, s)
  | .setRoot id, s => .ok ((), { s with root := some id })

end TreeImage

namespace BPlusTree

/-- The tree works on a pager that represents the image's page map. -/
structure Represents (t : BPlusTree) (s : TreeImage) : Prop where
  pager : t.pager.Represents s.map
  root : t.root = s.root
  malloc : t.malloc = s.malloc

/-- One request. -/
lemma handler_agrees (o : PageOp) (t : BPlusTree) (s : TreeImage) (h : t.Represents s) :
    Prog.Agree Represents (handler o t) (TreeImage.handler o s) := by
  obtain ⟨hp, hroot, hmalloc⟩ := h
  cases o with
  | getPage id =>
      simp only [handler, TreeImage.handler]
      by_cases hid : pageId id < s.map.numPages
      · obtain ⟨p', e, h', -⟩ := @BTreePager.getPage_represents t.malloc _ _ hp id hid
        rw [if_pos hid, e]
        exact ⟨rfl, h', hroot, hmalloc⟩
      · rw [if_neg hid, BTreePager.getPage_of_ge hp (not_lt.mp hid)]
        rfl
  | writePage id page =>
      simp only [handler, TreeImage.handler]
      by_cases hid : pageId id < s.map.numPages
      · obtain ⟨p', e, h'⟩ := @BTreePager.writePage_represents t.malloc _ _ hp id hid page
        rw [if_pos hid, e]
        exact ⟨rfl, h', hroot, hmalloc⟩
      · rw [if_neg hid, BTreePager.writePage_of_ge hp (not_lt.mp hid)]
        rfl
  | allocatePage =>
      simp only [handler, TreeImage.handler]
      by_cases hroom : s.map.numPages < tableMaxPages
      · obtain ⟨p', e, h'⟩ := @BTreePager.allocatePage_represents t.malloc _ _ hp hroom
        rw [if_pos hroom, e, ← hmalloc]
        exact ⟨rfl, h', hroot, rfl⟩
      · rw [if_neg hroom, BTreePager.allocatePage_of_full hp
          (le_antisymm hp.numPages_le (not_lt.mp hroom))]
        rfl
  | getRootPage => exact ⟨hp.getRootPage_eq, hp, hroot, hmalloc⟩
  | setRootPage id =>
      exact ⟨rfl, BTreePager.setRootPage_represents hp (Nat.mod_lt _ (by decide)), hroot, hmalloc⟩
  | numPages => exact ⟨hp.numPages_eq, hp, hroot, hmalloc⟩
  | getRoot => exact ⟨hroot, hp, hroot, hmalloc⟩
  | setRoot id => exact ⟨rfl, hp, rfl, hmalloc⟩

/-- **A tree on a pager runs every program as its image does.** -/
theorem run_agrees {α : Type} (p : PageM α) {t : BPlusTree} {s : TreeImage} (h : t.Represents s) :
    Prog.Agree Represents (p.run handler t) (p.run TreeImage.handler s) :=
  Prog.run_related handler_agrees p h

/-- A tree does not choose what `malloc` hands out. -/
theorem run_malloc {α : Type} (p : PageM α) {t t' : BPlusTree} {a : α}
    (h : p.run handler t = .ok (a, t')) : t'.malloc = t.malloc := by
  refine Prog.run_preserves (R := fun t t' : BPlusTree => t'.malloc = t.malloc) (fun _ => rfl) (fun
    h₁ h₂ => h₂.trans h₁) ?_ p h
  intro o t x t' h
  cases o with
  | getPage id => obtain ⟨r, -, h⟩ := bind_eq_ok h; cases h; rfl
  | writePage id page => obtain ⟨r, -, h⟩ := bind_eq_ok h; cases h; rfl
  | allocatePage => obtain ⟨r, -, h⟩ := bind_eq_ok h; cases h; rfl
  | getRootPage => cases h; rfl
  | setRootPage id => cases h; rfl
  | numPages => cases h; rfl
  | getRoot => cases h; rfl
  | setRoot id => cases h; rfl

end BPlusTree

end DbToy
