import DbToy.Lib.Edge
import DbToy.PageCount

/-!
# Rows that come in order

Rows with ascending or with descending keys, as a counter for the keys gives them, are all inserted
at one edge of the tree.  The pages that they take are known exactly (`edgePages`), and with them
the row that overruns the page table (`rows_in_order`): the shell has room for 28853 rows in
ascending order and for 27860 in descending order.

What comes between the insertions does not count: searches, selections, keys that are there
already, and closing and opening.
-/

namespace DbToy

open SearchTree Odometer Runs
open Dictionary (SameLoads)

/-- The pages of a tree after `n` insertions at one edge. -/
def edgePages (P : TreeParams) (side : Side) (n : ℕ) : ℕ :=
  levelSum (wheels side P.leafCapacity P.innerCapacity 1) n
    ((wheels side P.leafCapacity P.innerCapacity 0).turns n)

lemma edgePages_mono {P : TreeParams} {side : Side} {m n : ℕ} (h : m ≤ n) :
    edgePages P side m ≤ edgePages P side n :=
  levelSum_mono _ h (Wheel.turns_mono _ h)

/-- A key that a call inserts is there already, or it comes beyond all that are there. -/
def Edgewise (side : Side) (past : List TreeCall) : TreeCall → Prop
  | .insert key _ => key ∈ (rowsOf past).map Prod.fst ∨
      ∀ old ∈ (rowsOf past).map Prod.fst, side.Beyond old key
  | _ => True

/-! ## Keys -/

lemma length_distinctKeys (calls : List TreeCall) :
    (distinctKeys calls).length = ((rowsOf calls).map Prod.fst).toFinset.card :=
  (List.card_toFinset _).symm

/-- A call that inserts no row, or one of a key that is there, adds no key. -/
lemma length_distinctKeys_of_mem {past : List TreeCall} {c : TreeCall}
    (h : ∀ row ∈ c.rows, row.1 ∈ (rowsOf past).map Prod.fst) :
    (distinctKeys (past ++ [c])).length = (distinctKeys past).length := by
  rw [length_distinctKeys, length_distinctKeys, rowsOf_append, List.map_append,
    List.toFinset_append]
  refine congrArg Finset.card (Finset.union_eq_left.mpr ?_)
  intro key hkey
  obtain ⟨row, hrow, rfl⟩ := List.mem_map.mp (List.mem_toFinset.mp hkey)
  exact List.mem_toFinset.mpr (h row hrow)

lemma length_distinctKeys_of_notMem {past : List TreeCall} {key : UInt32} {row : Row}
    (h : key ∉ (rowsOf past).map Prod.fst) :
    (distinctKeys (past ++ [.insert key row])).length = (distinctKeys past).length + 1 := by
  have hrows : TreeCall.rows (.insert key row) = [(key, row)] := rfl
  rw [length_distinctKeys, length_distinctKeys, rowsOf_append, hrows, List.map_append,
    List.toFinset_append, Finset.union_comm]
  exact Finset.card_insert_of_notMem fun hmem => h (List.mem_toFinset.mp hmem)

lemma length_distinctKeys_le {past cs : List TreeCall} :
    (distinctKeys past).length ≤ (distinctKeys (past ++ cs)).length := by
  rw [length_distinctKeys, length_distinctKeys, rowsOf, rowsOf, List.flatMap_append,
    List.map_append, List.toFinset_append]
  exact Finset.card_le_card Finset.subset_union_left

/-! ## The dictionary -/

namespace Dictionary

variable {P : TreeParams} {side : Side} {past calls : List TreeCall} {D D' : Dictionary}

/-- A dictionary whose rows came in order. -/
structure Edged (side : Side) (P : TreeParams) (past : List TreeCall) (D : Dictionary) : Prop where
  steady : D.Steady P
  onEdge : OnEdge side P.leafCapacity P.innerCapacity (distinctKeys past).length D.tree D.numPages
  keys : ∀ key, key ∈ D.cells.map Prod.fst ↔ key ∈ (rowsOf past).map Prod.fst

lemma create_edged (hP : P.Valid) : Edged side P [] (create P) := by
  refine ⟨create_steady hP, ⟨?_, ?_, fun h => absurd rfl h, ?_⟩, fun key => Iff.rfl⟩
  · intro k hk
    obtain rfl := Nat.le_zero.mp hk
    exact (Wheel.shows_of_le _ (Nat.zero_le _)).symm
  · exact Wheel.turns_of_le _ (Nat.zero_le _)
  · have hturns : ticks (wheels side P.leafCapacity P.innerCapacity) 1 0 = 0 :=
      Wheel.turns_of_le _ (Nat.zero_le _)
    show 1 = places _ 0 0
    rw [places, Finset.sum_range_one, hturns]

/-- The pages of rows that came in order. -/
lemma Edged.numPages_eq (hD : D.Edged side P past) :
    D.numPages = edgePages P side (distinctKeys past).length := by
  obtain ⟨hsteady, honEdge, -⟩ := hD
  have hP := hsteady.params_eq ▸ hsteady.wf.valid
  have hcap : ∀ k, 0 < (wheels side P.leafCapacity P.innerCapacity k).cap := by
    intro k
    cases k with
    | zero => exact (cap_wheels_zero hP.leafCapacity_even.2).symm ▸ hP.leafCapacity_even.2
    | succ k => exact (cap_wheels_succ k).symm ▸ hP.innerCapacity_even.2
  have hheight : D.tree.height ≤ (distinctKeys past).length := by
    rcases Nat.eq_zero_or_pos D.tree.height with h | h
    · rw [h]
      exact Nat.zero_le _
    · exact (Nat.le_add_left _ _).trans
        (ticks_add_le _ hcap (honEdge.low (Nat.pos_iff_ne_zero.mp h)))
  rw [honEdge.nodes_eq]
  exact (levelSum_eq_places _ (fun _ => rfl) hheight honEdge.top honEdge.low).symm

/-- A new row that comes in order. -/
lemma Edged.put (hD : D.Edged side P past) {key : UInt32} {row : Row}
    (hnew : key ∉ (rowsOf past).map Prod.fst) (hedge : Edgewise side past (.insert key row)) :
    (D.put (key, row)).Edged side P (past ++ [.insert key row]) := by
  obtain ⟨hsteady, honEdge, hkeys⟩ := hD
  have hmem : key ∉ D.cells.map Prod.fst := fun h => hnew ((hkeys key).mp h)
  have hP := hsteady.params_eq ▸ hsteady.wf.valid
  have hatEdge : AtEdge side key D.tree.height D.tree.tree := by
    refine atEdge_of_tight hsteady.wf.sound.tight fun c hc => ?_
    exact hedge.resolve_left hnew c.1 ((hkeys c.1).mp (List.mem_map_of_mem hc))
  refine ⟨hsteady.put hmem, ?_, ?_⟩
  · rw [length_distinctKeys_of_notMem hnew, Dictionary.put, hsteady.params_eq]
    exact honEdge.insert (c := (key, row)) hP.leafCapacity_even.2 hP.innerCapacity_even.2 hatEdge
  · intro k
    rw [(hsteady.wf.put (c := (key, row)) hmem).2, rowsOf_append, List.map_append, List.mem_append,
      ← hkeys k]
    constructor
    · intro hk
      obtain ⟨d, hd, rfl⟩ := List.mem_map.mp hk
      rcases mem_putCell.mp hd with rfl | hd
      · exact Or.inr List.mem_cons_self
      · exact Or.inl (List.mem_map_of_mem hd)
    · rintro (hk | hk)
      · obtain ⟨d, hd, rfl⟩ := List.mem_map.mp hk
        exact List.mem_map_of_mem (mem_putCell.mpr (Or.inr hd))
      · obtain rfl : k = key := List.mem_singleton.mp hk
        exact List.mem_map_of_mem (mem_putCell.mpr (Or.inl rfl))

/-- A call that adds no key. -/
lemma Edged.of_rows (hD : D.Edged side P past) {c : TreeCall}
    (h : ∀ row ∈ c.rows, row.1 ∈ (rowsOf past).map Prod.fst) : D.Edged side P (past ++ [c]) := by
  refine ⟨hD.steady, ?_, ?_⟩
  · rw [length_distinctKeys_of_mem h]
    exact hD.onEdge
  · intro key
    rw [hD.keys key, rowsOf_append, List.map_append, List.mem_append]
    constructor
    · exact Or.inl
    · rintro (hkey | hkey)
      · exact hkey
      · obtain ⟨row, hrow, rfl⟩ := List.mem_map.mp hkey
        exact h row hrow

/-- A call that leaves the dictionary as it is. -/
lemma Edged.answer_same (hD : D.Edged side P past) {c : TreeCall} {r : TreeReply}
    (hrows : ∀ row ∈ c.rows, row.1 ∈ (rowsOf past).map Prod.fst)
    (hanswer : answer c D = .ok (r, D)) :
    (∀ r D', answer c D = .ok (r, D') → D'.Edged side P (past ++ [c])) ∧
      (edgePages P side (distinctKeys (past ++ [c])).length ≤ tableMaxPages →
        ∃ r D', answer c D = .ok (r, D')) := by
  refine ⟨?_, fun _ => ⟨r, D, hanswer⟩⟩
  intro r' D' h
  cases hanswer.symm.trans h
  exact hD.of_rows hrows

/-- **One call.**  It is answered if its key has room. -/
lemma Edged.answer (hD : D.Edged side P past) {c : TreeCall} (hc : SameLoads P c)
    (hedge : Edgewise side past c) :
    (∀ r D', answer c D = .ok (r, D') → D'.Edged side P (past ++ [c])) ∧
      (edgePages P side (distinctKeys (past ++ [c])).length ≤ tableMaxPages →
        ∃ r D', answer c D = .ok (r, D')) := by
  cases c with
  | insert key row =>
      by_cases hmem : key ∈ D.cells.map Prod.fst
      · have hanswer : Dictionary.answer (.insert key row) D
            = .ok (.status .failDuplicateKey, D) := if_pos hmem
        refine hD.answer_same (fun d hd => ?_) hanswer
        rw [List.mem_singleton.mp hd]
        exact (hD.keys key).mp hmem
      · have hput := @Edged.put P side past D hD key row (fun h => hmem ((hD.keys key).mpr h)) hedge
        have hanswer : Dictionary.answer (.insert key row) D
            = if (D.put (key, row)).numPages ≤ tableMaxPages then
                .ok (.status .success, D.put (key, row))
              else .error (.pageIndex tableMaxPages) := if_neg hmem
        refine ⟨?_, ?_⟩
        · intro r D' h
          rw [hanswer] at h
          split_ifs at h
          cases h
          exact hput
        · intro hroom
          rw [← hput.numPages_eq] at hroom
          exact ⟨_, _, hanswer.trans (if_pos hroom)⟩
  | reopen leafLoad innerNodeLoad counts malloc =>
      refine ⟨?_, fun _ => ⟨_, _, rfl⟩⟩
      intro r D' h
      cases h
      obtain ⟨rfl, rfl⟩ := hc
      rw [hD.steady.withLoads]
      exact hD.of_rows (by simp [TreeCall.rows])
  | find key => exact hD.answer_same (by simp [TreeCall.rows]) rfl
  | select minVal maxVal => exact hD.answer_same (by simp [TreeCall.rows]) rfl
  | getRootPage => exact hD.answer_same (by simp [TreeCall.rows]) rfl
  | getTotalPage => exact hD.answer_same (by simp [TreeCall.rows]) rfl

/-- A run is answered if each of its calls is that has room, where the room that it takes grows
with the keys, and the keys of the whole run have room. -/
lemma exists_run_of_room {Inv : List TreeCall → Dictionary → Prop}
    {Meets : List TreeCall → TreeCall → Prop} {pages : ℕ → ℕ} (hmono : Monotone pages)
    (step : ∀ past c D, Inv past D → Meets past c →
      pages (distinctKeys (past ++ [c])).length ≤ tableMaxPages →
      ∃ r D', answer c D = .ok (r, D') ∧ Inv (past ++ [c]) D')
    (hinv : Inv [] (create P)) (hmeets : Throughout Meets [] calls)
    (hroom : pages (distinctKeys calls).length ≤ tableMaxPages) :
    ∃ replies D, runCalls calls (create P) = .ok (replies, D) := by
  have hall : Throughout (fun past c => Meets past c ∧
      pages (distinctKeys (past ++ [c])).length ≤ tableMaxPages) [] calls := by
    refine throughout_iff.mpr fun before c after heq => ⟨?_, ?_⟩
    · exact throughout_iff.mp hmeets before c after heq
    · have hcut : calls = (before ++ [c]) ++ after := by rw [heq, List.append_cons]
      refine le_trans (hmono ?_) hroom
      rw [List.nil_append, hcut]
      exact length_distinctKeys_le
  obtain ⟨replies, D, hrun, -⟩ := @runAll_of_history _ _ _ _ Dictionary.answer Inv _
    (fun _ _ _ => True) (fun past c D hD hc => by
      obtain ⟨r, D', h, hD'⟩ := step past c D hD hc.1 hc.2
      exact ⟨r, D', h, trivial, hD'⟩) calls [] _ hinv hall
  exact ⟨replies, D, hrun⟩

/-- A run whose rows come in order. -/
lemma Edged.runCalls (hP : P.Valid) (hcalls : ∀ c ∈ calls, SameLoads P c)
    (hedge : Throughout (Edgewise side) [] calls) {replies : List TreeReply}
    (hrun : runCalls calls (create P) = .ok (replies, D)) : D.Edged side P calls := by
  have hmeets : Throughout (fun past c => SameLoads P c ∧ Edgewise side past c) [] calls :=
    throughout_iff.mpr fun before c after heq =>
      ⟨hcalls c (heq ▸ List.mem_append_right _ List.mem_cons_self),
        throughout_iff.mp hedge before c after heq⟩
  exact runAll_throughout (fun past c D r D' hD hc h => (hD.answer hc.1 hc.2).1 r D' h)
    (create_edged hP) hmeets hrun

/-- It is answered if all its keys have room. -/
lemma Edged.exists_run (hP : P.Valid) (hcalls : ∀ c ∈ calls, SameLoads P c)
    (hedge : Throughout (Edgewise side) [] calls)
    (hroom : edgePages P side (distinctKeys calls).length ≤ tableMaxPages) :
    ∃ replies D, Dictionary.runCalls calls (create P) = .ok (replies, D) := by
  refine @exists_run_of_room P calls (Edged side P) (fun past c => SameLoads P c ∧
    Edgewise side past c) _ (fun _ _ h => edgePages_mono h) ?_ (create_edged hP) ?_ hroom
  · intro past c D hD hc hle
    obtain ⟨hkeeps, hanswers⟩ := hD.answer hc.1 hc.2
    obtain ⟨r, D', h⟩ := hanswers hle
    exact ⟨r, D', h, hkeeps r D' h⟩
  · exact throughout_iff.mpr fun before c after heq =>
      ⟨hcalls c (heq ▸ List.mem_append_right _ List.mem_cons_self),
        throughout_iff.mp hedge before c after heq⟩

end Dictionary

/-! ## Sessions -/

/-- The rows that the shell's tree has room for. -/
def shellRoom : Side → ℕ
  | .left => 27860
  | .right => 28853

lemma mainParams_edgePages_iff (side : Side) (n : ℕ) :
    edgePages mainParams side n ≤ tableMaxPages ↔ n ≤ shellRoom side := by
  have hroom : edgePages mainParams side (shellRoom side) ≤ tableMaxPages := by
    cases side <;> decide +kernel
  have hnext : tableMaxPages < edgePages mainParams side (shellRoom side + 1) := by
    cases side <;> decide +kernel
  constructor
  · intro h
    by_contra hlt
    have hmono := @edgePages_mono mainParams side _ _ (Nat.lt_of_not_le hlt)
    exact absurd (hmono.trans h) (not_le_of_gt hnext)
  · intro h
    exact (edgePages_mono h).trans hroom

/-- **Rows that come in order**, ascending or descending, take so many pages, and are all answered
if that is no more than the page table has.  The shell's tree has room for 28853 rows in ascending
and for 27860 in descending order, and for not one more. -/
theorem rows_in_order {P : TreeParams} (hP : P.Valid) (side : Side) {file : Option (List UInt8)}
    {counts : ℕ → ℕ} {malloc : ℕ → Page} {S₀ : Session}
    (hcreate : Session.create P file counts malloc = .ok S₀) {calls : List TreeCall}
    (hcalls : ∀ c ∈ calls, SameLoads P c) (hedge : Throughout (Edgewise side) [] calls) :
    (edgePages P side (distinctKeys calls).length ≤ tableMaxPages → ∃ replies S,
        S₀.runCalls calls = .ok (replies, S) ∧
        S.tree.pager.numPages = edgePages P side (distinctKeys calls).length) ∧
      (tableMaxPages < edgePages P side (distinctKeys calls).length →
        S₀.runCalls calls = .error (.pageIndex tableMaxPages)) ∧
      (P = mainParams → (edgePages P side (distinctKeys calls).length ≤ tableMaxPages ↔
        (distinctKeys calls).length ≤ shellRoom side)) := by
  refine ⟨?_, ?_, ?_⟩
  · intro hroom
    obtain ⟨replies, D, hD⟩ := Dictionary.Edged.exists_run hP hcalls hedge hroom
    have hedged := Dictionary.Edged.runCalls hP hcalls hedge hD
    rcases Session.runCalls_outcome (mirrors_of_create hP hcreate)
      (admitsAll_of_sameLoads hP hcalls) with ⟨replies', S, D', hS, hD', ⟨s, hs⟩, -⟩ | ⟨-, hD'⟩
    · cases hD.symm.trans hD'
      refine ⟨replies, S, hS, ?_⟩
      rw [hs.represents.pager.numPages_eq, hs.numPages, hedged.numPages_eq]
    · exact nomatch hD.symm.trans hD'
  · intro hfull
    rcases Session.runCalls_outcome (mirrors_of_create hP hcreate)
      (admitsAll_of_sameLoads hP hcalls) with ⟨replies, S, D, -, hD, ⟨s, hs⟩, -⟩ | ⟨hS, -⟩
    · have hedged := Dictionary.Edged.runCalls hP hcalls hedge hD
      rw [← hedged.numPages_eq, ← hs.numPages] at hfull
      exact absurd hs.stores.numPages_le (not_le_of_gt hfull)
    · exact hS
  · rintro rfl
    exact mainParams_edgePages_iff side _

/-- Five ascending keys, one of them twice, with a search and a closing in between. -/
def orderedCalls : List TreeCall :=
  [.insert 3 [1], .insert 5 [1], .find 4, .insert 6 [2], .insert 5 [3],
    .reopen 2 2 (fun _ => 1) fun _ => Page.filled 9, .insert 8 [4], .insert 9 [5]]

theorem rows_in_order_five : ∃ S₀ replies S,
    Session.create smallParams none (fun _ => 0) (fun _ => Page.filled 7) = .ok S₀ ∧
      S₀.runCalls orderedCalls = .ok (replies, S) ∧ S.tree.pager.numPages = 4 := by
  obtain ⟨S₀, hcreate, -⟩ := Session.create_mirrors smallParams_valid none (fun _ => 0)
    fun _ => Page.filled 7
  have hcalls : ∀ c ∈ orderedCalls, SameLoads smallParams c := by
    simp [orderedCalls, SameLoads, smallParams]
  have hedge : Throughout (Edgewise .right) [] orderedCalls := by
    simp [orderedCalls, Throughout, Edgewise, rowsOf, TreeCall.rows, Side.Beyond]
  obtain ⟨replies, S, hrun, hpages⟩ :=
    (rows_in_order smallParams_valid .right hcreate hcalls hedge).1 (by decide)
  exact ⟨S₀, replies, S, hcreate, hrun, hpages⟩

end DbToy
