import DbToy.BPlusTree
import DbToy.Lib.Protocol

/-!
# What the tree asks of its pager

Read off the methods, whatever the pager answers.

* `find` and `select_cell` look at the pages and at the root (`Looks`).  The opening of a file sets
  the pointer to the root besides, and changes no page either (`Reads`).
* `insert` and the creation of a tree keep to `rootLast`: they set the root to the page that they
  added last, and add no page after that.
-/

namespace DbToy

open Prog

namespace PageOp

/-- Requests for a page or for the root. -/
def Looks : PageOp → Prop
  | getPage _ => True
  | getRootPage => True
  | getRoot => True
  | _ => False

/-- Requests that change no page and do not count the pages. -/
def Reads : PageOp → Prop
  | getPage _ => True
  | getRootPage => True
  | getRoot => True
  | setRoot _ => True
  | _ => False

/-- Requests that change no number of the metadata. -/
def Plain : PageOp → Prop
  | allocatePage => False
  | setRootPage _ => False
  | _ => True

lemma Looks.reads {o : PageOp} (h : o.Looks) : o.Reads := by
  cases o with
  | getPage id => trivial
  | getRootPage => trivial
  | getRoot => trivial
  | writePage id page => exact h
  | allocatePage => exact h
  | setRootPage id => exact h
  | numPages => exact h
  | setRoot id => exact trivial

lemma Reads.plain {o : PageOp} (h : o.Reads) : o.Plain := by
  cases o with
  | allocatePage => exact h
  | setRootPage id => exact h
  | getPage id => trivial
  | writePage id page => trivial
  | getRootPage => trivial
  | numPages => trivial
  | getRoot => trivial
  | setRoot id => trivial

end PageOp

/-- How far a method has come: it may have added pages, and it may have set the root. -/
inductive Phase where
  | adding (last : Option ℕ)
  | rooted

/-- The page that was added last may become the root, and then no page is added. -/
def rootLast : Protocol PageOp PageOp.Ans Phase where
  Allows
    | .adding last, .setRootPage id => last = some id
    | .rooted, .allocatePage => False
    | .rooted, .setRootPage _ => False
    | _, _ => True
  next
    | .adding _, .allocatePage, new => .adding (some new.1)
    | .adding _, .setRootPage _, _ => .rooted
    | q, _, _ => q

/-- A client that changes no metadata keeps to the protocol, and stays where it is. -/
lemma follows_of_plain {α : Type} {p : PageM α} (hp : Only PageOp.Plain p) {q : Phase}
    {Post : Phase → α → Prop} (h : ∀ a, Post q a) : Follows rootLast q p Post := by
  refine hp.follows (fun o ho => ?_) h
  cases o with
  | allocatePage => exact absurd ho id
  | setRootPage id => exact absurd ho not_false
  | getPage id => cases q <;> exact ⟨trivial, fun _ => rfl⟩
  | writePage id page => cases q <;> exact ⟨trivial, fun _ => rfl⟩
  | getRootPage => cases q <;> exact ⟨trivial, fun _ => rfl⟩
  | numPages => cases q <;> exact ⟨trivial, fun _ => rfl⟩
  | getRoot => cases q <;> exact ⟨trivial, fun _ => rfl⟩
  | setRoot id => cases q <;> exact ⟨trivial, fun _ => rfl⟩

namespace BPlusTree

/-! ## Methods that read -/

section

variable {A : PageOp → Prop}

lemma only_getNodeBy (hget : ∀ id, A (.getPage id)) (id : ℕ) : Only A (getNodeBy id) :=
  .bind (.request (hget id)) fun _ => .liftM _

lemma only_rootBlock (hroot : A .getRoot) (hget : ∀ id, A (.getPage id)) : Only A rootBlock := by
  refine .bind (.request hroot) fun root => ?_
  cases root with
  | none => exact .fail _
  | some id => exact .request (hget id)

lemma only_findLoop (hget : ∀ id, A (.getPage id)) (key : UInt32) : ∀ (fuel pageId : ℕ)
    (node : BtreeNode), Only A (findLoop key fuel pageId node)
  | 0, _, _ => .fail _
  | _ + 1, _, .leaf _ => .pure _
  | fuel + 1, _, .inner _ =>
      .bind (.liftM _) fun _ => .bind (.liftM _) fun _ => .bind (.liftM _) fun _ =>
        .bind (only_getNodeBy hget _) fun _ => only_findLoop hget key fuel _ _

lemma only_find (hlooks : ∀ o : PageOp, o.Looks → A o) (key : UInt32) : Only A (find key) := by
  have hget : ∀ id, A (.getPage id) := fun id => hlooks _ trivial
  refine .bind (.request (hlooks _ trivial)) fun pageId => ?_
  refine .bind (only_rootBlock (hlooks _ trivial) hget) fun page => ?_
  refine .bind (.liftM _) fun curr => ?_
  split_ifs
  · exact .pure _
  · refine .bind (only_findLoop hget key _ _ _) fun found => ?_
    refine .bind (.liftM _) fun pos => ?_
    split_ifs
    · refine .bind (.liftM _) fun k => ?_
      split_ifs
      · exact .pure _
      · exact .pure _
    · exact .pure _

lemma only_cellLoop {σ : Type} {action : ℕ → ℕ → σ → PageM σ}
    (haction : ∀ pageId cell s, Only A (action pageId cell s)) (pageId : ℕ) (node : LeafNode)
    (minKey maxKey : UInt32) : ∀ (count k : ℕ) (s : σ),
      Only A (cellLoop pageId node action minKey maxKey count k s)
  | 0, _, _ => .pure _
  | count + 1, k, s => by
      refine .bind (.liftM _) fun key => ?_
      split_ifs
      · exact .bind (.liftM _) fun cell => .bind (haction _ _ _) fun s =>
          only_cellLoop haction pageId node minKey maxKey count (k + 1) s
      · exact only_cellLoop haction pageId node minKey maxKey count (k + 1) s

lemma only_childLoop {σ : Type} (node : InternalNode) {visit : ℕ → σ → PageM σ}
    (hvisit : ∀ id s, Only A (visit id s)) : ∀ (count k : ℕ) (s : σ),
      Only A (childLoop node visit count k s)
  | 0, _, _ => .pure _
  | count + 1, k, _ => .bind (.liftM _) fun _ => .bind (hvisit _ _) fun s =>
      only_childLoop node hvisit count (k + 1) s

/-- The visit asks for pages; the rest is up to its actions. -/
lemma only_postOrderVisit {σ : Type} {actions : VisitActions σ} (hget : ∀ id, A (.getPage id))
    (hinner : ∀ f ∈ actions.innerNode, ∀ id s, Only A (f id s))
    (hleaf : ∀ f ∈ actions.leafNode, ∀ id s, Only A (f id s))
    (hcell : ∀ f ∈ actions.leafCell, ∀ id cell s, Only A (f id cell s)) (minKey maxKey : UInt32) :
    ∀ (fuel id : ℕ) (s : σ), Only A (postOrderVisit actions minKey maxKey fuel id s)
  | 0, _, _ => .fail _
  | fuel + 1, id, s => by
      have hcall : ∀ {action : Option (ℕ → σ → PageM σ)}, (∀ f ∈ action, ∀ id s, Only A (f id s)) →
          ∀ s, Only A (callAction action id s) := by
        intro action haction s
        cases action with
        | none => exact .pure _
        | some f => exact haction f rfl id s
      rw [postOrderVisit]
      split_ifs
      · exact .pure _
      · refine .bind (only_getNodeBy hget id) fun node => ?_
        split_ifs
        · exact .pure _
        · cases node with
          | inner node =>
              refine .bind (.liftM _) fun i => .bind (.liftM _) fun j => .bind (.liftM _) fun _ => ?_
              refine .bind (only_childLoop node (fun id s => ?_) _ _ _) fun s => hcall hinner s
              exact only_postOrderVisit hget hinner hleaf hcell minKey maxKey fuel id s
          | leaf node =>
              refine .bind ?_ fun s => hcall hleaf s
              cases hf : actions.leafCell with
              | none => exact .pure s
              | some f => exact only_cellLoop (hcell f hf) id node minKey maxKey _ _ s

lemma only_readCell (hget : ∀ id, A (.getPage id)) (rowSize : ℕ) (cell : ℕ × ℕ) :
    Only A (readCell rowSize cell) :=
  .bind (.request (hget _)) fun _ => .bind (.liftM _) fun _ => .bind (.liftM _) fun _ => .pure _

lemma only_readCells (hget : ∀ id, A (.getPage id)) (rowSize : ℕ) : ∀ cells : List (ℕ × ℕ),
    Only A (readCells rowSize cells)
  | [] => .pure _
  | cell :: cells => .bind (only_readCell hget rowSize cell) fun _ =>
      .bind (only_readCells hget rowSize cells) fun _ => .pure _

lemma only_selectRows (hlooks : ∀ o : PageOp, o.Looks → A o) (rowSize : ℕ)
    (minVal maxVal : UInt32) : Only A (selectRows rowSize minVal maxVal) := by
  have hget : ∀ id, A (.getPage id) := fun id => hlooks _ trivial
  refine .bind (.bind (.request (hlooks _ trivial)) fun rootPid => ?_) fun result => ?_
  · refine only_postOrderVisit hget nofun nofun ?_ _ _ _ _ _
    intro f hf id cell s
    cases hf
    exact .pure _
  · exact only_readCells hget rowSize result

lemma only_findRow (hlooks : ∀ o : PageOp, o.Looks → A o) (rowSize : ℕ) (key : UInt32) :
    Only A (findRow rowSize key) := by
  have hget : ∀ id, A (.getPage id) := fun id => hlooks _ trivial
  refine .bind (only_find hlooks key) fun loc => ?_
  split_ifs
  · refine .bind (.bind (.request (hget _)) fun page => ?_) fun cell => .pure _
    exact .bind (.liftM _) fun node => .bind (.liftM _) fun cell => only_readCell hget rowSize _
  · exact .pure _

/-- Opening a file reads it. -/
lemma only_init_open (hreads : ∀ o : PageOp, o.Reads → A o) (P : TreeParams) :
    Only A (init P 'o') := by
  have hget : ∀ id, A (.getPage id) := fun id => hreads _ trivial
  rw [init, if_neg (by decide)]
  refine .bind (.bind (.request (hreads _ trivial)) fun pid => ?_) fun _ => ?_
  · exact .bind (.request (hget _)) fun page => .bind (.liftM _) fun _ =>
      .request (hreads _ trivial)
  · exact .bind (only_rootBlock (hreads _ trivial) hget) fun page => .liftM _

end

/-! ## Methods that write -/

section

variable {A : PageOp → Prop}

lemma plain_linkTo (child parent : ℕ) : Only PageOp.Plain (linkTo child parent) :=
  .bind (.request trivial) fun _ => .bind (.liftM _) fun _ => .request trivial

lemma plain_unmarkRoot : Only PageOp.Plain unmarkRoot := by
  refine .bind (.request trivial) fun root => ?_
  cases root with
  | none => exact .pure _
  | some old => exact .bind (.request trivial) fun page => .request trivial

lemma plain_linkHalves (up : Upward) (pivot : UInt32) (newPageId : ℕ) :
    Only PageOp.Plain (linkHalves up pivot newPageId) := by
  rw [linkHalves]
  split_ifs <;> exact .bind (plain_linkTo _ _) fun _ => plain_linkTo _ _

lemma plain_relinkLoop (node : InternalNode) (parent : ℕ) : ∀ count r : ℕ,
    Only PageOp.Plain (relinkLoop node parent count r)
  | 0, _ => .pure _
  | count + 1, r => .bind (.liftM _) fun _ => .bind (plain_linkTo _ _) fun _ =>
      plain_relinkLoop node parent count (r + 1)

end

variable {P : TreeParams} {last : Option ℕ}

/-- Before a root is set. -/
def StillAdding {α : Type} : Phase → α → Prop
  | .adding _, _ => True
  | .rooted, _ => False

lemma follows_insertToLeaf (pageId : ℕ) (key : UInt32) (row : Row) :
    Follows rootLast (.adding last) (insertToLeaf P pageId key row) StillAdding := by
  refine .bind (.request trivial fun page => ?_)
  refine .bind (.liftM fun leaf _ => .bind (.liftM fun leaf _ => ?_))
  split_ifs
  · refine .bind (.liftM fun leaf _ => .bind (.request trivial fun _ => ?_))
    exact .pure trivial
  · refine .bind (.request trivial fun new => ?_)
    refine .bind (.liftM fun halves _ => ?_)
    refine .bind (.request trivial fun _ => .bind (.request trivial fun _ => ?_))
    exact .pure trivial

/-- Every turn of the loop may add a page; none sets the root. -/
lemma follows_climb : ∀ (fuel : ℕ) (up : Upward) (last : Option ℕ),
    Follows rootLast (.adding last) (climb P fuel up) StillAdding
  | 0, _, _ => trivial
  | fuel + 1, up, last => by
      rw [climb]
      split_ifs
      · exact .pure trivial
      · refine .bind (.request trivial fun page => .bind (.liftM fun parentNode _ => ?_))
        split_ifs
        · refine follows_of_plain (.bind (.liftM _) fun node => ?_) fun _ => trivial
          refine .bind (.request trivial) fun _ => .bind (.request trivial) fun leftPage => ?_
          refine .bind (.liftM _) fun _ => ?_
          exact .bind (.liftM _) fun _ => .bind (plain_linkTo _ _) fun _ => .pure _
        · refine .bind (.request trivial fun new => .bind (.liftM fun halves _ => ?_))
          refine .bind (.request trivial fun _ => .bind (.request trivial fun _ => ?_))
          refine .bind (follows_of_plain (plain_linkHalves up halves.1 new.1) fun _ => ?_)
          refine .bind (follows_of_plain (@only_getNodeBy PageOp.Plain (fun _ => trivial) new.1) fun node => ?_)
          cases node with
          | leaf node => trivial
          | inner node =>
              refine .bind (follows_of_plain (plain_relinkLoop node new.1 _ _) fun _ => ?_)
              exact .bind (.request trivial fun page => follows_climb fuel _ _)

/-- A page that was just added becomes the root. -/
lemma follows_updateRoot (id : ℕ) :
    Follows rootLast (.adding (some id)) (updateRoot id) fun _ _ => True := by
  refine .bind (follows_of_plain plain_unmarkRoot fun _ => ?_)
  refine .bind (.request rfl fun _ => follows_of_plain ?_ fun _ => trivial)
  exact .bind (.request trivial) fun page => .bind (.liftM _) fun _ =>
    .bind (.request trivial) fun _ => .request trivial

lemma follows_growRoot (up : Upward) :
    Follows rootLast (.adding last) (growRoot up) fun _ _ => True := by
  refine .bind (.request trivial fun new => .bind (.liftM fun newRoot _ => ?_))
  refine .bind (.request trivial fun _ => ?_)
  refine .bind (follows_of_plain (plain_linkTo _ _) fun _ => ?_)
  exact .bind (follows_of_plain (plain_linkTo _ _) fun _ => follows_updateRoot new.1)

/-- **Insertion keeps to the protocol.** -/
theorem follows_insert (P : TreeParams) (key : UInt32) (row : Row) :
    Follows rootLast (.adding none) (insert P key row) fun _ _ => True := by
  refine .bind (follows_of_plain (only_find (fun _ h => h.reads.plain) key) fun loc => ?_)
  split_ifs
  · exact .pure trivial
  · refine .bind ((follows_insertToLeaf loc.pageId key row).mono fun q overflow hq => ?_)
    cases q with
    | rooted => exact hq.elim
    | adding last =>
        cases overflow with
        | none => exact .pure trivial
        | some up =>
            refine .bind ((follows_climb _ up last).mono fun q rest hq => ?_)
            cases q with
            | rooted => exact hq.elim
            | adding last =>
                cases rest with
                | none => exact .pure trivial
                | some up => exact .bind ((follows_growRoot up).mono fun _ _ _ => .pure trivial)

/-- So does the creation of a tree. -/
theorem follows_init_create (P : TreeParams) :
    Follows rootLast (.adding none) (init P 'c') fun _ _ => True := by
  rw [init, if_pos rfl]
  refine .bind (.bind (.request trivial fun new => .bind (.liftM fun leaf _ => ?_)))
  refine .bind (.request trivial fun _ => (follows_updateRoot new.1).mono fun q _ _ => ?_)
  exact follows_of_plain (.bind (only_rootBlock trivial fun _ => trivial) fun page => .liftM _)
    fun _ => trivial

end BPlusTree

end DbToy
