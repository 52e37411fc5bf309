import DbToy.Lib.Levels
import DbToy.PageTable
import DbToy.TreeShape
import DbToy.ShellRuns

/-!
# How many pages a workload needs

The nodes of a tree are half full, so that its height and its pages are bounded by its keys
(`height_and_page_count`).  With the rows and loads of the shell, 27800 keys always fit the page
table.
-/

namespace DbToy

open SearchTree
open Dictionary (SameLoads)

/-- What half full nodes mean for a tree with more than one level. -/
structure Occupied (L I : ℕ) (R : Rooted UInt32 Row) : Prop where
  height : R.height ≠ 0 → 2 * (I / 2 + 1) ^ (R.height - 1) * (L / 2) ≤ R.cells.length
  leaves : R.height ≠ 0 → width 0 R.height R.tree * (L / 2) ≤ R.cells.length
  levels : ∀ k, 1 < width (k + 1) R.height R.tree →
    width (k + 1) R.height R.tree * (I / 2 + 1) ≤ width k R.height R.tree
  pages : (pids R.height R.tree).length
    = ∑ k ∈ Finset.range (R.height + 1), width k R.height R.tree

variable {L I : ℕ} {R : Rooted UInt32 Row}

theorem occupied_of_rootFilled (hR : RootFilled L I R.height R.tree) : Occupied L I R where
  height hne := by
    obtain ⟨h, t⟩ := R
    obtain ⟨h, rfl⟩ := Nat.exists_eq_succ_of_ne_zero hne
    exact hR.le_length_cells
  leaves hne := by
    obtain ⟨h, t⟩ := R
    obtain ⟨h, rfl⟩ := Nat.exists_eq_succ_of_ne_zero hne
    exact hR.width_zero_mul_le
  levels _ hk := hR.width_succ_mul_le hk
  pages := length_pids R.height R.tree

/-! ## The shell's tree -/

lemma mainParams_leafCapacity : mainParams.leafCapacity = 56 := by decide

lemma mainParams_innerCapacity : mainParams.innerCapacity = 338 := by decide

/-- The pages of a tree with the shell's loads. -/
lemma length_pids_le_of_cells (hR : RootFilled 56 338 R.height R.tree)
    (hcells : R.cells.length ≤ 27800) : (pids R.height R.tree).length ≤ 998 := by
  obtain ⟨hheight, hleaves, hlevels, hpages⟩ := occupied_of_rootFilled hR
  obtain ⟨h, t⟩ := R
  rw [hpages]
  match h with
  | 0 =>
      rw [Finset.sum_range_one, width_self]
      decide
  | 1 =>
      have h₀ : width 0 1 t * (56 / 2) ≤ (Rooted.mk 1 t).cells.length := hleaves Nat.one_ne_zero
      rw [Finset.sum_range_succ, Finset.sum_range_one, width_self]
      show width 0 1 t + 1 ≤ 998
      omega
  | 2 =>
      have h₀ : width 0 2 t * (56 / 2) ≤ (Rooted.mk 2 t).cells.length := hleaves (Nat.succ_ne_zero 1)
      have h₁ : 1 < width 1 2 t → width 1 2 t * (338 / 2 + 1) ≤ width 0 2 t := hlevels 0
      rw [Finset.sum_range_succ, Finset.sum_range_succ, Finset.sum_range_one, width_self]
      show width 0 2 t + width 1 2 t + 1 ≤ 998
      omega
  | h + 3 =>
      -- too many keys for four levels
      have htall := hheight (Nat.succ_ne_zero _)
      have hpow : 170 ^ 2 ≤ 170 ^ (h + 2) := Nat.pow_le_pow_right (by decide) (by omega)
      have hlow : 2 * 170 ^ 2 * 28 ≤ 2 * 170 ^ (h + 2) * 28 :=
        Nat.mul_le_mul_right _ (Nat.mul_le_mul_left _ hpow)
      have hsucc : 2 * 170 ^ (h + 2) * 28 ≤ 27800 := le_trans htall hcells
      omega

/-- The keys that the calls insert, each once. -/
def distinctKeys (calls : List TreeCall) : List UInt32 := ((rowsOf calls).map Prod.fst).dedup

namespace Dictionary

variable {D : Dictionary} {K : List UInt32}

/-- There is one cell under a key. -/
lemma WF.length_cells_le (hD : D.WF) (hK : ∀ key ∈ D.cells.map Prod.fst, key ∈ K) :
    D.cells.length ≤ K.length := by
  have hnodup : (D.cells.map Prod.fst).Nodup := List.pairwise_map.mpr (hD.sorted.imp ne_of_lt)
  have hle := (hnodup.subperm hK).length_le
  rwa [List.length_map] at hle

/-- The shell's dictionary with keys of `K` only. -/
structure Within (K : List UInt32) (D : Dictionary) : Prop where
  steady : D.Steady mainParams
  keys : ∀ key ∈ D.cells.map Prod.fst, key ∈ K

lemma Within.numPages_le (hD : D.Within K) (hK : K.length ≤ 27800) : D.numPages ≤ 998 := by
  have hfilled := hD.steady.filled
  rw [mainParams_leafCapacity, mainParams_innerCapacity] at hfilled
  have hpages : (pids D.tree.height D.tree.tree).length = D.numPages := by
    rw [hD.steady.wf.sound.pids.length_eq, List.length_range]
  rw [← hpages]
  exact length_pids_le_of_cells hfilled ((hD.steady.wf.length_cells_le hD.keys).trans hK)

lemma Within.put (hD : D.Within K) {c : UInt32 × Row} (hc : c.1 ∉ D.cells.map Prod.fst)
    (hK : c.1 ∈ K) : (D.put c).Within K := by
  refine ⟨hD.steady.put hc, ?_⟩
  intro key hkey
  rw [(hD.steady.wf.put hc).2] at hkey
  obtain ⟨d, hd, rfl⟩ := List.mem_map.mp hkey
  rcases mem_putCell.mp hd with rfl | hd
  · exact hK
  · exact hD.keys _ (List.mem_map_of_mem hd)

/-- Every call is answered. -/
lemma Within.answer (hD : D.Within K) (hK : K.length ≤ 27800) {c : TreeCall}
    (hc : SameLoads mainParams c) (hrows : ∀ row ∈ c.rows, row.1 ∈ K) :
    ∃ r D', D.answer c = .ok (r, D') ∧ D'.Within K := by
  cases c with
  | insert key row =>
      rw [Dictionary.answer]
      by_cases hmem : key ∈ D.cells.map Prod.fst
      · exact ⟨_, D, if_pos hmem, hD⟩
      · have hput := hD.put (c := (key, row)) hmem (hrows _ (List.mem_singleton_self _))
        have hle := hput.numPages_le hK
        rw [if_neg hmem, if_pos (le_trans hle (by decide))]
        exact ⟨_, _, rfl, hput⟩
  | reopen leafLoad innerNodeLoad counts malloc =>
      obtain ⟨rfl, rfl⟩ := hc
      exact ⟨_, D, by rw [Dictionary.answer, hD.steady.withLoads], hD⟩
  | find key => exact ⟨_, D, rfl, hD⟩
  | select minVal maxVal => exact ⟨_, D, rfl, hD⟩
  | getRootPage => exact ⟨_, D, rfl, hD⟩
  | getTotalPage => exact ⟨_, D, rfl, hD⟩

/-- Every run is answered. -/
lemma Within.runCalls (hD : D.Within K) (hK : K.length ≤ 27800) {calls : List TreeCall}
    (hcalls : ∀ c ∈ calls, SameLoads mainParams c ∧ ∀ row ∈ c.rows, row.1 ∈ K) :
    ∃ replies D', D.runCalls calls = .ok (replies, D') ∧ D'.Within K := by
  have hall : Runs.Along Dictionary.answer
      (fun _ c => SameLoads mainParams c ∧ ∀ row ∈ c.rows, row.1 ∈ K) calls D :=
    @Runs.along_of_invariant _ _ _ _ Dictionary.answer (fun _ => True) _ _
      (fun _ _ _ hc => ⟨hc, fun _ _ _ => trivial⟩) calls D trivial hcalls
  exact Runs.runAll_of_along (fun _ _ hD hc => hD.answer hK hc.1 hc.2) hD hall

end Dictionary

/-- The shell's tree answers every run with few enough keys. -/
theorem Session.run_of_few_keys {file : Option (List UInt8)} {counts : ℕ → ℕ} {malloc : ℕ → Page}
    {S₀ : Session} (hcreate : Session.create mainParams file counts malloc = .ok S₀)
    {calls : List TreeCall} (hcalls : ∀ c ∈ calls, SameLoads mainParams c)
    (hkeys : (distinctKeys calls).length ≤ 27800) :
    ∃ replies S, S₀.runCalls calls = .ok (replies, S) ∧ S.tree.pager.numPages ≤ tableMaxPages := by
  have hP := mainParams_valid
  have hwithin : (Dictionary.create mainParams).Within (distinctKeys calls) :=
    ⟨Dictionary.create_steady hP, fun key hkey => absurd hkey List.not_mem_nil⟩
  have hrows : ∀ c ∈ calls, SameLoads mainParams c ∧ ∀ row ∈ c.rows, row.1 ∈ distinctKeys calls :=
    fun c hc => ⟨hcalls c hc, fun row hrow => List.mem_dedup.mpr
      (List.mem_map_of_mem (List.mem_flatMap.mpr ⟨c, hc, hrow⟩))⟩
  obtain ⟨replies, D, hD, hwithin'⟩ := hwithin.runCalls hkeys hrows
  rcases Session.runCalls_outcome (mirrors_of_create hP hcreate)
    (admitsAll_of_sameLoads hP hcalls) with ⟨replies', S, D', hS, hD', hmirrors, -⟩ | ⟨-, hD'⟩
  · cases hD.symm.trans hD'
    obtain ⟨s, hs⟩ := hmirrors
    refine ⟨replies, S, hS, ?_⟩
    rw [hs.represents.pager.numPages_eq, hs.numPages]
    exact le_trans (hwithin'.numPages_le hkeys) (by decide)
  · exact nomatch hD.symm.trans hD'

/-- **Height and pages of a tree** that has been built with the same loads all the time: with more
than one level the keys are at least so many, and no level is too wide.  A workload of the shell
with at most 27800 keys needs no more than the pages that there are. -/
theorem height_and_page_count {P : TreeParams} (hP : P.Valid) {file : Option (List UInt8)}
    {counts : ℕ → ℕ} {malloc : ℕ → Page} {S₀ : Session}
    (hcreate : Session.create P file counts malloc = .ok S₀) {calls : List TreeCall}
    (hcalls : ∀ c ∈ calls, SameLoads P c) :
    (∀ replies S, S₀.runCalls calls = .ok (replies, S) → ∃ s R, S.tree.Represents s ∧
        Shape P s R ∧ Occupied P.leafCapacity P.innerCapacity R) ∧
      (P = mainParams → (distinctKeys calls).length ≤ 27800 → ∃ replies S,
        S₀.runCalls calls = .ok (replies, S) ∧ S.tree.pager.numPages ≤ tableMaxPages) := by
  constructor
  · intro replies S hrun
    obtain ⟨s, D, hs, hsteady, hstores, -⟩ := Session.stores_of_run hP hcreate hcalls hrun
    exact ⟨s, D.tree, hs.represents, hstores.shape hsteady.filled,
      occupied_of_rootFilled hsteady.filled⟩
  · rintro rfl hkeys
    exact Session.run_of_few_keys hcreate hcalls hkeys

/-- Three rows, and one of them again. -/
def shellCalls : List TreeCall :=
  [.insert 7 (List.replicate 68 1), .insert 3 (List.replicate 68 2), .insert 7 (List.replicate 68 3),
    .reopen 10000 1000 (fun _ => 1) fun _ => Page.filled 9, .insert 5 (List.replicate 68 4)]

lemma shellCalls_sameLoads : ∀ c ∈ shellCalls, SameLoads mainParams c := by
  simp [shellCalls, SameLoads, mainParams, UserInfo.getRowByte, colUsernameSize, colEmailSize]

theorem height_and_page_count_small :
    (∃ S₀ replies S s R, Session.create smallParams none (fun _ => 0) (fun _ => Page.filled 7) = .ok S₀ ∧
      S₀.runCalls smallCalls = .ok (replies, S) ∧ S.tree.Represents s ∧ Shape smallParams s R ∧
      Occupied smallParams.leafCapacity smallParams.innerCapacity R) ∧
    ∃ S₀ replies S, Session.create mainParams none (fun _ => 0) (fun _ => Page.filled 7) = .ok S₀ ∧
      S₀.runCalls shellCalls = .ok (replies, S) ∧ S.tree.pager.numPages ≤ tableMaxPages := by
  constructor
  · obtain ⟨S₀, replies, S, hcreate, hrun⟩ := exists_run_smallCalls
    obtain ⟨s, R, hR⟩ := (height_and_page_count smallParams_valid hcreate
      smallCalls_sameLoads).1 replies S hrun
    exact ⟨S₀, replies, S, s, R, hcreate, hrun, hR⟩
  · obtain ⟨S₀, hcreate, -⟩ := Session.create_mirrors mainParams_valid none (fun _ => 0)
      fun _ => Page.filled 7
    obtain ⟨replies, S, hS⟩ := (height_and_page_count mainParams_valid hcreate
      shellCalls_sameLoads).2 rfl (by decide)
    exact ⟨S₀, replies, S, hcreate, hS⟩

end DbToy
