import DbToy.Dictionary

/-!
# The map of first rows

What a tree is for: a finite map that keeps, for each key, the row that was first inserted under
it.  `Expects` is the reply that this map gives to a call.

* `Dictionary.answer_expects`: a dictionary that keeps the first rows gives the expected reply and
  goes on keeping them.
* `Dictionary.runCalls_expects`: so does a whole run.
-/

namespace DbToy

open SearchTree

/-- The row that comes first under a key. -/
def firstRow (rows : List (UInt32 × Row)) (key : UInt32) : Option Row :=
  (lookup key rows).map Prod.snd

/-- The rows that a call inserts. -/
def TreeCall.rows : TreeCall → List (UInt32 × Row)
  | .insert key row => [(key, row)]
  | _ => []

/-- The rows that the calls insert. -/
def rowsOf (calls : List TreeCall) : List (UInt32 × Row) := calls.flatMap TreeCall.rows

/-- The reply to a call after the rows were inserted: where a cell is stays open, and so do the
number of pages and the page of the root. -/
def Expects (rows : List (UInt32 × Row)) : TreeCall → TreeReply → Prop
  | .insert key _, reply => reply = .status
      (if (firstRow rows key).isSome = true then .failDuplicateKey else .success)
  | .find key, reply => ∃ loc, reply = .location loc ((firstRow rows key).map (key, ·)) ∧
      loc.isExist = (firstRow rows key).isSome
  | .select minVal maxVal, reply => ∃ cells, reply = .rows cells ∧
      cells.Pairwise (fun c d => c.1 < d.1) ∧
      ∀ key row, (key, row) ∈ cells ↔
        (minVal ≤ key ∧ key ≤ maxVal) ∧ firstRow rows key = some row
  | .reopen _ _ _ _, reply => reply = .reopened
  | .getRootPage, reply => ∃ id, reply = .number id
  | .getTotalPage, reply => ∃ n, reply = .number n

/-- Every call of a run has the expected reply. -/
def ExpectsAll (calls : List TreeCall) (replies : List TreeReply) : Prop :=
  replies.length = calls.length ∧ ∀ i c r, calls[i]? = some c → replies[i]? = some r →
    Expects (rowsOf (calls.take i)) c r

lemma rowsOf_append (calls : List TreeCall) (c : TreeCall) :
    rowsOf (calls ++ [c]) = rowsOf calls ++ c.rows := by
  rw [rowsOf, List.flatMap_append, List.flatMap_singleton]
  rfl

lemma lookup_eq_map_firstRow (rows : List (UInt32 × Row)) (key : UInt32) :
    lookup key rows = (firstRow rows key).map (key, ·) := by
  rw [firstRow]
  cases hfind : lookup key rows with
  | none => rfl
  | some c =>
      have hkey : c.1 = key := by simpa using List.find?_some hfind
      rw [← hkey]
      rfl

namespace Dictionary

variable {D D' : Dictionary}

/-- The cells are the first rows. -/
def Keeps (rows : List (UInt32 × Row)) (D : Dictionary) : Prop :=
  ∀ key, lookup key D.cells = lookup key rows

variable {rows : List (UInt32 × Row)}

lemma Keeps.mem_iff (h : Keeps rows D) (key : UInt32) :
    key ∈ D.cells.map Prod.fst ↔ (firstRow rows key).isSome = true := by
  rw [firstRow, Option.isSome_map, ← h key, ← not_iff_not, ← lookup_eq_none,
    Option.not_isSome_iff_eq_none]

/-- The rows have their keys in the dictionary, so different keys have different cells. -/
lemma Keeps.keys_subset (h : Keeps rows D) : rows.map Prod.fst ⊆ D.cells.map Prod.fst := by
  intro key hkey
  rw [h.mem_iff, firstRow, Option.isSome_map, Option.isSome_iff_ne_none, ne_eq, lookup_eq_none]
  exact not_not_intro hkey

lemma Keeps.length_le (h : Keeps rows D) (hnodup : (rows.map Prod.fst).Nodup) :
    rows.length ≤ D.cells.length := by
  have hle := (hnodup.subperm h.keys_subset).length_le
  rwa [List.length_map, List.length_map] at hle

/-- A new cell is a new first row. -/
lemma Keeps.put (hD : D.WF) (h : Keeps rows D) {c : UInt32 × Row}
    (hc : c.1 ∉ D.cells.map Prod.fst) : Keeps (rows ++ [c]) (D.put c) := by
  intro key
  have hne : ∀ d ∈ D.cells, d.1 ≠ c.1 := fun d hd heq => hc (List.mem_map.mpr ⟨d, hd, heq⟩)
  rw [(hD.put hc).2, lookup_putCell hD.sorted hne, lookup_append, h key]

/-- A row under a key that is there is not a first row. -/
lemma Keeps.append_of_mem (h : Keeps rows D) {c : UInt32 × Row}
    (hc : c.1 ∈ D.cells.map Prod.fst) : Keeps (rows ++ [c]) D := by
  intro key
  rw [lookup_append, ← h key, lookup_singleton]
  split_ifs with hkey
  · have hsome : (lookup key D.cells).isSome = true := by
      rw [Option.isSome_iff_ne_none, ne_eq, lookup_eq_none, ← hkey]
      exact not_not_intro hc
    obtain ⟨d, hd⟩ := Option.isSome_iff_exists.mp hsome
    rw [hd, Option.some_or]
  · rw [Option.or_none]

/-- **One call**: the dictionary gives the reply of the map of first rows and remains that map. -/
theorem answer_expects (hD : D.WF) (h : Keeps rows D) {c : TreeCall} {r : TreeReply}
    (hc : answer c D = .ok (r, D')) : Expects rows c r ∧ Keeps (rows ++ c.rows) D' := by
  cases c with
  | insert key row =>
      have hmem := h.mem_iff key
      simp only [answer] at hc
      split_ifs at hc with hkey hroom
      · cases hc
        exact ⟨by rw [Expects, if_pos (hmem.mp hkey)], h.append_of_mem hkey⟩
      · cases hc
        exact ⟨by rw [Expects, if_neg (hmem.not.mp hkey)], h.put hD hkey⟩
  | find key =>
      cases hc
      refine ⟨⟨_, by rw [h key, lookup_eq_map_firstRow], ?_⟩, (List.append_nil rows).symm ▸ h⟩
      rw [Bool.eq_iff_iff, locate_isExist hD.sound.ordered]
      exact h.mem_iff key
  | select minVal maxVal =>
      cases hc
      refine ⟨⟨_, rfl, List.Pairwise.filter _ hD.sorted, ?_⟩, (List.append_nil rows).symm ▸ h⟩
      intro key row
      have hlookup : (key, row) ∈ D.cells ↔ firstRow rows key = some row := by
        rw [← and_iff_left (a := (key, row) ∈ D.cells) (show (key, row).1 = key from rfl),
          ← hD.sorted.lookup_eq_some, h key, lookup_eq_map_firstRow, Option.map_eq_some_iff]
        constructor
        · rintro ⟨row', hrow, heq⟩
          exact (Prod.mk.inj heq).2 ▸ hrow
        · intro hrow
          exact ⟨row, hrow, rfl⟩
      rw [List.mem_filter, hlookup, inRange, decide_eq_true_iff, and_comm]
  | getRootPage => cases hc; exact ⟨⟨_, rfl⟩, (List.append_nil rows).symm ▸ h⟩
  | getTotalPage => cases hc; exact ⟨⟨_, rfl⟩, (List.append_nil rows).symm ▸ h⟩
  | reopen leafLoad innerNodeLoad counts malloc =>
      cases hc
      exact ⟨rfl, (List.append_nil rows).symm ▸ h⟩

/-- **A run gives the replies of the map of first rows.** -/
theorem runCalls_expects {P : TreeParams} (hP : P.Valid) {calls : List TreeCall}
    (hcalls : (create P).AdmitsAll calls) {replies : List TreeReply}
    (h : runCalls calls (create P) = .ok (replies, D')) :
    D'.WF ∧ Keeps (rowsOf calls) D' ∧ ExpectsAll calls replies := by
  have hrun := @Runs.runAll_history _ _ _ _ answer
    (fun past D => D.WF ∧ Keeps (rowsOf past) D) Admits (fun past => Expects (rowsOf past))
    (fun past c D r D' hD hc hanswer => by
      obtain ⟨hexpects, hkeeps⟩ := answer_expects hD.1 hD.2 hanswer
      exact ⟨hexpects, hD.1.answer hc hanswer, (rowsOf_append past c).symm ▸ hkeeps⟩)
    calls [] (create P) D' replies ⟨create_wf hP, fun _ => rfl⟩ hcalls h
  rw [List.nil_append] at hrun
  exact ⟨hrun.1.1, hrun.1.2, hrun.2⟩

end Dictionary

end DbToy
