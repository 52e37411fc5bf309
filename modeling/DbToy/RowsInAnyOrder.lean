import DbToy.Lib.Extremes
import DbToy.RowsInOrder

/-!
# Rows that come in any order

The order of the rows decides how many pages they take.  Descending order takes the most, so that
rows have room in every order exactly if they have in that one; and with all nodes full there is a
number of rows that no order has room for (`room_in_every_order`).  For the shell these are 27860
and 55776 rows.

* `Dictionary.Grown`: what the insertions leave, whatever their order.
* `Grown.numPages_le`, `Grown.le_numPages`: its pages.
-/

namespace DbToy

open SearchTree Odometer Runs
open Dictionary (SameLoads)

/-- The pages that `n` rows take at least. -/
def fewestPages (P : TreeParams) (n : ℕ) : ℕ :=
  fewestSum (P.innerCapacity + 1) n (n ⌈/⌉ P.leafCapacity)

lemma fewestPages_mono {P : TreeParams} (hP : P.Valid) {m n : ℕ} (h : m ≤ n) :
    fewestPages P m ≤ fewestPages P n :=
  fewestSum_mono (Nat.succ_pos _) h ((gc_mul_ceilDiv hP.leafCapacity_even.2).monotone_l h)

namespace Dictionary

variable {P : TreeParams} {past calls : List TreeCall} {D D' : Dictionary}

lemma Keeps.mem_keys_iff {rows : List (UInt32 × Row)} (h : D.Keeps rows) (key : UInt32) :
    key ∈ D.cells.map Prod.fst ↔ key ∈ rows.map Prod.fst := by
  rw [h.mem_iff, firstRow, Option.isSome_map, Option.isSome_iff_ne_none, ne_eq, lookup_eq_none,
    not_not]

/-- **The most pages**: those that so many rows take in descending order. -/
theorem Steady.numPages_le (hD : D.Steady P)
    (hbulky : D.tree.height ≠ 0 → Bulky (P.leafCapacity / 2) D.tree.height D.tree.tree) :
    D.numPages ≤ edgePages P .left D.cells.length := by
  have hP := hD.params_eq ▸ hD.wf.valid
  have hpages : (pids D.tree.height D.tree.tree).length = D.numPages := by
    rw [hD.wf.sound.pids.length_eq, List.length_range]
  rw [← hpages]
  exact hD.filled.length_pids_le hP.leafCapacity_even hP.innerCapacity_even hbulky

/-- A new row leaves a leaf with more than half of its cells. -/
lemma Steady.put_bulky (hD : D.Steady P) {c : UInt32 × Row} :
    (D.put c).tree.height ≠ 0 →
      Bulky (P.leafCapacity / 2) (D.put c).tree.height (D.put c).tree.tree := by
  obtain ⟨-, rfl, hfilled⟩ := hD
  exact Rooted.insert_bulky hfilled

/-- A dictionary that was empty, after these calls. -/
structure Grown (P : TreeParams) (past : List TreeCall) (D : Dictionary) : Prop where
  steady : D.Steady P
  bulky : D.tree.height ≠ 0 → Bulky (P.leafCapacity / 2) D.tree.height D.tree.tree
  keeps : D.Keeps (rowsOf past)

lemma create_grown (hP : P.Valid) : Grown P [] (create P) :=
  ⟨create_steady hP, fun h => absurd rfl h, fun _ => rfl⟩

namespace Grown

lemma length_cells (hD : D.Grown P past) : D.cells.length = (distinctKeys past).length := by
  have hnodup : (D.cells.map Prod.fst).Nodup :=
    List.pairwise_map.mpr (hD.steady.wf.sorted.imp ne_of_lt)
  have hperm : (D.cells.map Prod.fst).Perm (distinctKeys past) := by
    refine (List.perm_ext_iff_of_nodup hnodup (List.nodup_dedup _)).mpr fun key => ?_
    rw [hD.keeps.mem_keys_iff, List.mem_dedup]
  rw [← hperm.length_eq, List.length_map]

lemma numPages_le (hD : D.Grown P past) :
    D.numPages ≤ edgePages P .left (distinctKeys past).length :=
  hD.length_cells ▸ hD.steady.numPages_le hD.bulky

/-- **The fewest pages.** -/
theorem le_numPages (hD : D.Grown P past) :
    fewestPages P (distinctKeys past).length ≤ D.numPages := by
  have hP := hD.steady.params_eq ▸ hD.steady.wf.valid
  have hpages : (pids D.tree.height D.tree.tree).length = D.numPages := by
    rw [hD.steady.wf.sound.pids.length_eq, List.length_range]
  rw [← hD.length_cells, ← hpages]
  exact hD.steady.filled.fewestSum_le hP.leafCapacity_even.2 _

/-- A new row. -/
lemma put (hD : D.Grown P past) {key : UInt32} {row : Row} (hne : key ∉ D.cells.map Prod.fst) :
    (D.put (key, row)).Grown P (past ++ [.insert key row]) := by
  refine ⟨hD.steady.put hne, hD.steady.put_bulky, ?_⟩
  rw [rowsOf_append]
  exact hD.keeps.put hD.steady.wf hne

/-- **One call.** -/
lemma answer (hD : D.Grown P past) {c : TreeCall} {r : TreeReply} (hc : SameLoads P c)
    (h : answer c D = .ok (r, D')) : D'.Grown P (past ++ [c]) := by
  have hkeeps : D'.Keeps (rowsOf (past ++ [c])) := by
    rw [rowsOf_append]
    exact (answer_expects hD.steady.wf hD.keeps h).2
  rcases answer_cases h with ⟨key, row, rfl, hne, -, -, rfl⟩ | ⟨_, _, _, _, rfl, rfl⟩ | ⟨rfl, -⟩
  · exact hD.put hne
  · exact ⟨hD.steady.answer hc h, hD.bulky, hkeeps⟩
  · exact ⟨hD.steady, hD.bulky, hkeeps⟩

/-- It is answered if its key has room in descending order. -/
lemma exists_answer (hD : D.Grown P past) {c : TreeCall} (hc : SameLoads P c)
    (hroom : edgePages P .left (distinctKeys (past ++ [c])).length ≤ tableMaxPages) :
    ∃ r D', Dictionary.answer c D = .ok (r, D') ∧ D'.Grown P (past ++ [c]) := by
  have hfits : D.HasRoom c := by
    cases c with
    | insert key row =>
        intro hne
        have hle := (@put P past D hD key row hne).numPages_le.trans hroom
        rwa [put_numPages] at hle
    | find key => trivial
    | select minVal maxVal => trivial
    | getRootPage => trivial
    | getTotalPage => trivial
    | reopen leafLoad innerNodeLoad counts malloc => trivial
  obtain ⟨r, D', h⟩ := answer_of_hasRoom hfits
  exact ⟨r, D', h, hD.answer hc h⟩

/-- A run. -/
lemma runCalls (hP : P.Valid) (hcalls : ∀ c ∈ calls, SameLoads P c) {replies : List TreeReply}
    (hrun : Dictionary.runCalls calls (create P) = .ok (replies, D)) : D.Grown P calls :=
  @runAll_throughout _ _ _ _ Dictionary.answer (Grown P) (fun _ c => SameLoads P c)
    (fun _ _ _ _ _ hD hc h => hD.answer hc h) calls [] _ D replies (create_grown hP)
    (throughout_iff.mpr fun _ c _ heq =>
      hcalls c (heq ▸ List.mem_append_right _ List.mem_cons_self)) hrun

/-- It is answered if all its keys have room in descending order. -/
lemma exists_run (hP : P.Valid) (hcalls : ∀ c ∈ calls, SameLoads P c)
    (hroom : edgePages P .left (distinctKeys calls).length ≤ tableMaxPages) :
    ∃ replies D, Dictionary.runCalls calls (create P) = .ok (replies, D) :=
  @exists_run_of_room P calls (Grown P) (fun _ c => SameLoads P c) _
    (fun _ _ h => edgePages_mono h) (fun _ _ _ hD hc hle => hD.exists_answer hc hle)
    (create_grown hP) (throughout_iff.mpr fun _ c _ heq =>
      hcalls c (heq ▸ List.mem_append_right _ List.mem_cons_self)) hroom

end Grown

end Dictionary

/-! ## Rows in descending order -/

/-- Rows under the keys from `n - 1` down to zero. -/
def descending (row : Row) : ℕ → List TreeCall
  | 0 => []
  | n + 1 => .insert (UInt32.ofNat n) row :: descending row n

variable {row : Row}

lemma keys_descending_succ (row : Row) (n : ℕ) : (rowsOf (descending row (n + 1))).map Prod.fst
    = UInt32.ofNat n :: (rowsOf (descending row n)).map Prod.fst := rfl

lemma sameLoads_descending {P : TreeParams} (hrow : row.length = P.rowSize) :
    ∀ n, ∀ c ∈ descending row n, SameLoads P c
  | n + 1, c, hc => by
      rcases List.mem_cons.mp hc with rfl | hc
      · exact hrow
      · exact sameLoads_descending hrow n c hc

lemma toNat_lt_of_mem_descending {key : UInt32} : ∀ {n : ℕ}, n ≤ 2 ^ 32 →
    key ∈ (rowsOf (descending row n)).map Prod.fst → key.toNat < n
  | n + 1, hn, hkey => by
      rw [keys_descending_succ] at hkey
      rcases List.mem_cons.mp hkey with rfl | hkey
      · rw [UInt32.toNat_ofNat_of_lt' hn]
        exact Nat.lt_succ_self n
      · exact Nat.lt_succ_of_lt (toNat_lt_of_mem_descending (Nat.le_of_succ_le hn) hkey)

lemma nodup_descending : ∀ {n : ℕ}, n ≤ 2 ^ 32 →
    ((rowsOf (descending row n)).map Prod.fst).Nodup
  | 0, _ => List.nodup_nil
  | n + 1, hn => by
      rw [keys_descending_succ]
      refine List.nodup_cons.mpr ⟨fun hmem => ?_, nodup_descending (Nat.le_of_succ_le hn)⟩
      have hlt := toNat_lt_of_mem_descending (Nat.le_of_succ_le hn) hmem
      rw [UInt32.toNat_ofNat_of_lt' hn] at hlt
      exact lt_irrefl n hlt

lemma length_keys_descending (row : Row) : ∀ n,
    ((rowsOf (descending row n)).map Prod.fst).length = n
  | 0 => rfl
  | n + 1 => by rw [keys_descending_succ, List.length_cons, length_keys_descending row n]

lemma length_distinctKeys_descending {n : ℕ} (hn : n ≤ 2 ^ 32) :
    (distinctKeys (descending row n)).length = n := by
  rw [distinctKeys, (nodup_descending hn).dedup, length_keys_descending]

lemma throughout_descending : ∀ {n : ℕ} {past : List TreeCall}, n ≤ 2 ^ 32 →
    (∀ old ∈ (rowsOf past).map Prod.fst, n ≤ old.toNat) →
      Throughout (Edgewise .left) past (descending row n)
  | 0, _, _, _ => trivial
  | n + 1, past, hn, hpast => by
      have hkey : (UInt32.ofNat n).toNat = n := UInt32.toNat_ofNat_of_lt' hn
      refine ⟨Or.inr fun old hold => ?_, throughout_descending (Nat.le_of_succ_le hn) ?_⟩
      · show UInt32.ofNat n < old
        rw [UInt32.lt_iff_toNat_lt, hkey]
        exact hpast old hold
      · intro old hold
        rw [rowsOf_append, List.map_append] at hold
        rcases List.mem_append.mp hold with hold | hold
        · exact Nat.le_of_succ_le (hpast old hold)
        · rw [List.mem_singleton.mp hold]
          exact hkey.ge

/-! ## Sessions -/

lemma mainParams_fewestPages_iff (n : ℕ) :
    fewestPages mainParams n ≤ tableMaxPages ↔ n ≤ 55776 := by
  have hroom : fewestPages mainParams 55776 ≤ tableMaxPages := by decide +kernel
  have hnext : tableMaxPages < fewestPages mainParams 55777 := by decide +kernel
  constructor
  · intro h
    by_contra hlt
    have hmono := fewestPages_mono mainParams_valid (Nat.lt_of_not_le hlt)
    exact absurd (hmono.trans h) (not_le_of_gt hnext)
  · intro h
    exact (fewestPages_mono mainParams_valid h).trans hroom

/-- **Room in every order.**  Whatever the order of the rows, and whatever calls come in between,
they take no more pages than in descending order, so that so many different keys can be inserted in
every order exactly if they can in that one; and they take no fewer than with all nodes full.  The
shell's tree has room for 27860 rows in every order, and for more than 55776 in none. -/
theorem room_in_every_order {P : TreeParams} (hP : P.Valid) {file : Option (List UInt8)}
    {counts : ℕ → ℕ} {malloc : ℕ → Page} {S₀ : Session}
    (hcreate : Session.create P file counts malloc = .ok S₀) :
    (∀ calls, (∀ c ∈ calls, SameLoads P c) →
      (∀ replies S, S₀.runCalls calls = .ok (replies, S) →
        fewestPages P (distinctKeys calls).length ≤ S.tree.pager.numPages ∧
          S.tree.pager.numPages ≤ edgePages P .left (distinctKeys calls).length) ∧
      (tableMaxPages < fewestPages P (distinctKeys calls).length →
        S₀.runCalls calls = .error (.pageIndex tableMaxPages))) ∧
    (∀ n ≤ 2 ^ 32, edgePages P .left n ≤ tableMaxPages ↔
      ∀ calls, (∀ c ∈ calls, SameLoads P c) → (distinctKeys calls).length ≤ n →
        ∃ replies S, S₀.runCalls calls = .ok (replies, S)) ∧
    (P = mainParams → ∀ n, (edgePages P .left n ≤ tableMaxPages ↔ n ≤ 27860) ∧
      (fewestPages P n ≤ tableMaxPages ↔ n ≤ 55776)) := by
  have houtcome := fun calls (hcalls : ∀ c ∈ calls, SameLoads P c) =>
    Session.runCalls_outcome (mirrors_of_create hP hcreate) (admitsAll_of_sameLoads hP hcalls)
  refine ⟨fun calls hcalls => ⟨?_, ?_⟩, fun n hn => ⟨?_, ?_⟩, ?_⟩
  · intro replies S hrun
    rcases houtcome calls hcalls with ⟨replies', S', D, hS, hD, ⟨s, hs⟩, -⟩ | ⟨hS, -⟩
    · cases hrun.symm.trans hS
      have hgrown := Dictionary.Grown.runCalls hP hcalls hD
      rw [hs.represents.pager.numPages_eq, hs.numPages]
      exact ⟨hgrown.le_numPages, hgrown.numPages_le⟩
    · exact absurd (hrun.symm.trans hS) (by simp)
  · intro hfull
    rcases houtcome calls hcalls with ⟨replies, S, D, -, hD, ⟨s, hs⟩, -⟩ | ⟨hS, -⟩
    · have hle := (Dictionary.Grown.runCalls hP hcalls hD).le_numPages
      rw [← hs.numPages] at hle
      exact absurd (hle.trans hs.stores.numPages_le) (not_le_of_gt hfull)
    · exact hS
  · intro hroom calls hcalls hkeys
    obtain ⟨replies, D, hD⟩ :=
      Dictionary.Grown.exists_run hP hcalls ((edgePages_mono hkeys).trans hroom)
    rcases houtcome calls hcalls with ⟨replies', S, D', hS, -⟩ | ⟨-, hD'⟩
    · exact ⟨replies', S, hS⟩
    · exact absurd (hD.symm.trans hD') (by simp)
  · -- the keys in descending order take the most pages
    intro hall
    have hrow : (List.replicate P.rowSize (0 : UInt8)).length = P.rowSize := List.length_replicate
    have hcalls := sameLoads_descending hrow n
    have hkeys := @length_distinctKeys_descending (List.replicate P.rowSize 0) n hn
    obtain ⟨replies, S, hrun⟩ := hall _ hcalls hkeys.le
    rcases houtcome _ hcalls with ⟨replies', S', D, -, hD, ⟨s, hs⟩, -⟩ | ⟨hS, -⟩
    · have hedged := Dictionary.Edged.runCalls hP hcalls
        (throughout_descending hn fun _ hold => absurd hold List.not_mem_nil) hD
      have hpages := hedged.numPages_eq
      rw [hkeys] at hpages
      rw [← hpages, ← hs.numPages]
      exact hs.stores.numPages_le
    · exact absurd (hrun.symm.trans hS) (by simp)
  · rintro rfl n
    exact ⟨mainParams_edgePages_iff .left n, mainParams_fewestPages_iff n⟩

/-- For the shell's tree. -/
theorem room_in_every_order_shell : ∃ S₀,
    Session.create mainParams none (fun _ => 0) (fun _ => Page.filled 7) = .ok S₀ ∧
      ∀ calls, (∀ c ∈ calls, SameLoads mainParams c) →
        ((distinctKeys calls).length ≤ 27860 → ∃ replies S, S₀.runCalls calls = .ok (replies, S)) ∧
        (55776 < (distinctKeys calls).length →
          S₀.runCalls calls = .error (.pageIndex tableMaxPages)) := by
  obtain ⟨S₀, hcreate, -⟩ := Session.create_mirrors mainParams_valid none (fun _ => 0)
    fun _ => Page.filled 7
  obtain ⟨hruns, hevery, hshell⟩ := room_in_every_order mainParams_valid hcreate
  refine ⟨S₀, hcreate, fun calls hcalls => ⟨?_, fun hmany => ?_⟩⟩
  · exact (hevery 27860 (by decide)).mp ((hshell rfl 27860).1.mpr le_rfl) calls hcalls
  · have hfew := (hshell rfl (distinctKeys calls).length).2.not.mpr (not_le_of_gt hmany)
    exact (hruns calls hcalls).2 (Nat.lt_of_not_le hfew)

end DbToy
