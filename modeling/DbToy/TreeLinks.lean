import DbToy.TreeOnPages

/-!
# Linking pages to parents

`link_to` changes the parent field of one page.  `Adopted` is what a sequence of such writes does
to the pages of an image: those in a list of ids have a new parent, no body and no root flag has
changed, and the other pages are as they were.

* `run_linkTo`, `run_linkHalves`: the links that an insertion sets.
* `run_relinkLoop`: the loop over the children of a new inner node.

Whatever is linked, no byte of a page changes but its parent field (`Relinked`).
-/

namespace DbToy

open SearchTree

/-- The root, as pager and tree object know it, and the blocks to come are the same. -/
structure TreeImage.SameRoot (s s' : TreeImage) : Prop where
  rootPid : s'.map.rootPid = s.map.rootPid
  root : s'.root = s.root
  malloc : s'.malloc = s.malloc

lemma TreeImage.SameRoot.refl (s : TreeImage) : s.SameRoot s := ⟨rfl, rfl, rfl⟩

lemma TreeImage.SameRoot.trans {s₁ s₂ s₃ : TreeImage} (h₁ : s₁.SameRoot s₂) (h₂ : s₂.SameRoot s₃) :
    s₁.SameRoot s₃ :=
  ⟨h₂.rootPid.trans h₁.rootPid, h₂.root.trans h₁.root, h₂.malloc.trans h₁.malloc⟩

/-- The pages in `ids` have been given the parent `p`. -/
structure Adopted (s s' : TreeImage) (ids : List ℕ) (p : ℕ) : Prop where
  numPages : s'.map.numPages = s.map.numPages
  sameRoot : s.SameRoot s'
  same : ∀ i ∉ ids, s'.map.content i = s.map.content i
  body : ∀ i, (s'.map.content i).body = (s.map.content i).body
  isRoot : ∀ i, (s'.map.content i).isRoot = (s.map.content i).isRoot
  parent : ∀ i ∈ ids, (s'.map.content i).parent = p

namespace Adopted

variable {s s₁ s₂ : TreeImage} {p : ℕ}

lemma nil (s : TreeImage) (p : ℕ) : Adopted s s [] p :=
  ⟨rfl, .refl s, fun _ _ => rfl, fun _ => rfl, fun _ => rfl,
    fun _ hi => absurd hi List.not_mem_nil⟩

/-- Two rounds for one parent. -/
lemma append {ids ids' : List ℕ} (h₁ : Adopted s s₁ ids p) (h₂ : Adopted s₁ s₂ ids' p) :
    Adopted s s₂ (ids ++ ids') p where
  numPages := h₂.numPages.trans h₁.numPages
  sameRoot := h₁.sameRoot.trans h₂.sameRoot
  same i hi := by
    rw [List.mem_append, not_or] at hi
    exact (h₂.same i hi.2).trans (h₁.same i hi.1)
  body i := (h₂.body i).trans (h₁.body i)
  isRoot i := (h₂.isRoot i).trans (h₁.isRoot i)
  parent i hi := by
    by_cases hi' : i ∈ ids'
    · exact h₂.parent i hi'
    · rw [h₂.same i hi']
      exact h₁.parent i ((List.mem_append.mp hi).resolve_right hi')

lemma holds {rowSize h : ℕ} {t : RowTree h} {ids : List ℕ} (ha : Adopted s s₁ ids p)
    (ht : Holds rowSize s.map.content h t) : Holds rowSize s₁.map.content h t :=
  ht.congr fun id _ => (ha.body id).symm

end Adopted

/-- Every page is as it was, up to its parent. -/
def Relinked (s s' : TreeImage) : Prop :=
  ∀ i, s'.map.content i = (s.map.content i).setParent (s'.map.content i).parent

namespace Relinked

variable {s s₁ s₂ : TreeImage}

lemma refl (s : TreeImage) : Relinked s s := fun _ => (Page.setParent_parent _).symm

lemma trans (h₁ : Relinked s s₁) (h₂ : Relinked s₁ s₂) : Relinked s s₂ := by
  intro i
  have hi := h₂ i
  rw [h₁ i, Page.setParent_setParent] at hi
  exact hi

end Relinked

namespace BPlusTree

section

variable {s s' : TreeImage}

lemma relinked_linkTo {child p : ℕ} (h : (linkTo child p).run TreeImage.handler s = .ok ((), s')) :
    Relinked s s' := by
  rw [linkTo] at h
  obtain ⟨page, s₁, hget, h⟩ := Prog.run_bind_eq_ok _ h
  have hget' := (Prog.run_request TreeImage.handler s (PageOp.getPage child)).symm.trans hget
  simp only [TreeImage.handler] at hget'
  split_ifs at hget' with hid
  cases hget'
  obtain ⟨node, -, h⟩ := (Prog.run_liftM_bind_eq_ok _).mp h
  have hwrite := (Prog.run_request TreeImage.handler s (PageOp.writePage child _)).symm.trans h
  simp only [TreeImage.handler, if_pos hid] at hwrite
  cases hwrite
  intro i
  simp only [PageMap.write_content]
  split_ifs with hi
  · have hself := ((s.map.content (pageId child)).setParent p).setParent_parent
    rw [Page.setParent_setParent] at hself
    rw [hi, hself]
  · rw [Page.setParent_parent]

lemma relinked_relinkLoop {node : InternalNode} {p : ℕ} : ∀ (count r : ℕ) {s : TreeImage},
    (relinkLoop node p count r).run TreeImage.handler s = .ok ((), s') → Relinked s s' := by
  intro count
  induction count with
  | zero =>
      intro r s h
      cases h
      exact .refl s'
  | succ count ih =>
      intro r s h
      rw [relinkLoop] at h
      obtain ⟨child, -, h⟩ := (Prog.run_liftM_bind_eq_ok _).mp h
      obtain ⟨_, s₁, hlink, hloop⟩ := Prog.run_bind_eq_ok _ h
      exact (relinked_linkTo hlink).trans (ih (r + 1) hloop)

lemma relinked_linkHalves {up : Upward} {pivot : UInt32} {newPageId : ℕ}
    (h : (linkHalves up pivot newPageId).run TreeImage.handler s = .ok ((), s')) :
    Relinked s s' := by
  have htwo : ∀ p q : ℕ, (linkTo up.left p >>= fun _ => linkTo up.right q).run TreeImage.handler s
      = .ok ((), s') → Relinked s s' := by
    intro p q h
    obtain ⟨_, s₁, hleft, hright⟩ := Prog.run_bind_eq_ok _ h
    exact (relinked_linkTo hleft).trans (relinked_linkTo hright)
  rw [linkHalves] at h
  split_ifs at h
  · exact htwo _ _ h
  · exact htwo _ _ h
  · exact htwo _ _ h

end

variable {rowSize : ℕ} {h : ℕ}

lemma run_linkTo (hrow : 0 < LeafNode.pageMax rowSize) {s : TreeImage}
    (hmax : s.map.numPages ≤ tableMaxPages) {d : RowTree h}
    (hd : Holds rowSize s.map.content h d) (hid : pid h d < s.map.numPages) {p : ℕ}
    (hp : p < 2 ^ 64) :
    ∃ s', (linkTo (pid h d) p).run TreeImage.handler s = .ok ((), s') ∧
      Adopted s s' [pid h d] p := by
  refine ⟨store s (pid h d) ((s.map.content (pid h d)).setParent p), ?_, rfl, ⟨rfl, rfl, rfl⟩, ?_,
    ?_, ?_, ?_⟩
  · rw [linkTo, Prog.run_bind_of_ok _ (run_getPage hid hmax),
      Prog.run_liftM_bind _ _ (hd.loadNodeFrom hrow)]
    exact run_writePage hid hmax _
  · intro i hi
    exact s.map.write_content_of_ne _ fun h => hi (List.mem_singleton.mpr h)
  · intro i
    rw [store, PageMap.write_content]
    split_ifs with hi
    · rw [hi, Page.body_setParent]
    · rfl
  · intro i
    rw [store, PageMap.write_content]
    split_ifs with hi
    · rw [hi, Page.isRoot_setParent]
    · rfl
  · intro i hi
    rw [store, PageMap.write_content, if_pos (List.mem_singleton.mp hi), Page.parent_setParent _ hp]

/-- The loop over the children of a node gives all of them the parent. -/
lemma run_relinkLoop (hrow : 0 < LeafNode.pageMax rowSize) {node : InternalNode} (hn : node.WF)
    (hle : node.numKeys ≤ node.numMaxKeys) {p : ℕ} (hp : p < 2 ^ 64) :
    ∀ (M : List (RowTree h)) (front : List ℕ) {s : TreeImage}, s.map.numPages ≤ tableMaxPages →
      node.children = front ++ M.map (pid h) →
      (∀ d ∈ M, Holds rowSize s.map.content h d ∧ pid h d < s.map.numPages) →
      ∃ s', (relinkLoop node p M.length front.length).run TreeImage.handler s = .ok ((), s') ∧
        Adopted s s' (M.map (pid h)) p := by
  intro M
  induction M with
  | nil =>
      intro front s _ _ _
      exact ⟨s, rfl, .nil s p⟩
  | cons d M ih =>
      intro front s hmax hchildren hM
      have hchild := InternalNode.getChild_cut hn hle hchildren
      obtain ⟨hd, hid⟩ := hM d List.mem_cons_self
      obtain ⟨s₁, e₁, h₁⟩ := run_linkTo hrow hmax hd hid hp
      obtain ⟨s₂, e₂, h₂⟩ := @ih (front ++ [pid h d]) s₁ (by rw [h₁.numPages]; exact hmax)
        (by rw [hchildren, List.append_assoc]; rfl) fun e he => by
          obtain ⟨he, hide⟩ := hM e (List.mem_cons_of_mem _ he)
          exact ⟨h₁.holds he, by rw [h₁.numPages]; exact hide⟩
      rw [List.length_append, List.length_singleton] at e₂
      refine ⟨s₂, ?_, h₁.append h₂⟩
      rw [List.length_cons, relinkLoop, Prog.run_liftM_bind _ _ hchild, Prog.run_bind_of_ok _ e₁]
      exact e₂

/-- The two pages around the key that was posted: the left one goes to the new page if the key is
above the pivot, the right one unless the key is below it. -/
lemma run_linkHalves (hrow : 0 < LeafNode.pageMax rowSize) {s : TreeImage}
    (hmax : s.map.numPages ≤ tableMaxPages) {l r : RowTree h}
    (hl : Holds rowSize s.map.content h l) (hidl : pid h l < s.map.numPages)
    (hr : Holds rowSize s.map.content h r) (hidr : pid h r < s.map.numPages)
    {key pivot : UInt32} {parent newPageId : ℕ} (hparent : parent < 2 ^ 64)
    (hnew : newPageId < 2 ^ 64) :
    ∃ s₁ s₂, (linkHalves ⟨key, pid h l, pid h r, parent⟩ pivot newPageId).run TreeImage.handler s
        = .ok ((), s₂) ∧
      Adopted s s₁ [pid h l] (if pivot < key then newPageId else parent) ∧
      Adopted s₁ s₂ [pid h r] (if key < pivot then parent else newPageId) := by
  have hp : (if pivot < key then newPageId else parent) < 2 ^ 64 := by split_ifs <;> assumption
  have hq : (if key < pivot then parent else newPageId) < 2 ^ 64 := by split_ifs <;> assumption
  obtain ⟨s₁, e₁, h₁⟩ := run_linkTo hrow hmax hl hidl hp
  obtain ⟨s₂, e₂, h₂⟩ := run_linkTo hrow (by rw [h₁.numPages]; exact hmax) (h₁.holds hr)
    (by rw [h₁.numPages]; exact hidr) hq
  refine ⟨s₁, s₂, ?_, h₁, h₂⟩
  rw [linkHalves]
  rcases lt_trichotomy key pivot with hlt | heq | hgt
  · rw [if_neg (not_lt_of_gt hlt)] at e₁
    rw [if_pos hlt] at e₂
    rw [if_pos hlt, Prog.run_bind_of_ok _ e₁]
    exact e₂
  · rw [heq, if_neg (lt_irrefl _)] at e₁ e₂
    rw [heq, if_neg (lt_irrefl _), if_neg (lt_irrefl _), Prog.run_bind_of_ok _ e₁]
    exact e₂
  · rw [if_pos hgt] at e₁
    rw [if_neg (not_lt_of_gt hgt)] at e₂
    rw [if_neg (not_lt_of_gt hgt), if_pos hgt, Prog.run_bind_of_ok _ e₁]
    exact e₂

end BPlusTree

end DbToy
