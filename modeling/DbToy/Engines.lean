import DbToy.RowsInAnyOrder
import DbToy.TableEngine

/-!
# The two engines

The same commands can be given to the table (`Insert`, `Select`) and to the tree (`InsertToBtree`,
`SelectUsingBtree`).  The tree keeps, of the rows that the table has, the first one of each number,
and prints them in the order of the numbers (`engines_agree`).

* `Session.evaluate`: the commands on the tree.
* `FirstLog`: what the tree answers, told from all rows that were inserted.
-/

namespace DbToy

open SearchTree Istream
open Runs (runAll Along)

def Statement.command : Statement → Command
  | .insert row => .insert row
  | .select => .select

/-- `evaluate()` of `InsertToBtree` and `SelectUsingBtree`. -/
def Session.evaluate (c : Statement) (S : Session) : Except Fault (Said × Session) := do
  let evaluated ← c.command.evaluate S
  match evaluated with
  | .result status S said => .ok ((status, said), S)
  -- neither of them ends the process
  | .exited _ => .ok ((.executeSuccess, []), S)

/-- The process on the tree, with the file that it finds, if any. -/
def ClientProcess.runTree (p : ClientProcess) (file : Option (List UInt8)) :
    Except Fault (List Said × Option (List UInt8)) := do
  let S ← initalize file p.counts p.blocks
  let (said, S) ← runAll Session.evaluate p.statements S
  let file ← S.tree.destroy
  .ok (said, some file)

/-! ## The first row of each number -/

def addFirst (cells : List (UInt32 × UserInfo)) (row : UserInfo) : List (UInt32 × UserInfo) :=
  if row.getPrimaryKey ∈ cells.map Prod.fst then cells else putCell (row.getPrimaryKey, row) cells

/-- The first row of each number, in the order of the keys. -/
def firstRows (log : List UserInfo) : List (UInt32 × UserInfo) := log.foldl addFirst []

lemma firstRows_concat (log : List UserInfo) (row : UserInfo) :
    firstRows (log ++ [row]) = addFirst (firstRows log) row := List.foldl_concat _ _ _ _

/-- The rows with their keys. -/
def keyed (log : List UserInfo) : List (UInt32 × UserInfo) :=
  log.map fun row => (row.getPrimaryKey, row)

lemma map_fst_keyed (log : List UserInfo) :
    (keyed log).map Prod.fst = log.map UserInfo.getPrimaryKey := by
  rw [keyed, List.map_map]
  rfl

/-- **They are sorted**, and those that are found first. -/
theorem firstRows_spec : ∀ log : List UserInfo, Sorted (firstRows log) ∧
    ∀ key, lookup key (firstRows log) = lookup key (keyed log) := by
  intro log
  induction log using List.reverseRecOn with
  | nil => exact ⟨List.Pairwise.nil, fun _ => rfl⟩
  | append_singleton log row ih =>
      obtain ⟨hsorted, hlookup⟩ := ih
      have hkeyed : keyed (log ++ [row]) = keyed log ++ [(row.getPrimaryKey, row)] := by
        rw [keyed, List.map_append]
        rfl
      rw [firstRows_concat, addFirst, hkeyed]
      split_ifs with hmem
      · refine ⟨hsorted, fun key => ?_⟩
        rw [hlookup, lookup_append, lookup_singleton]
        split_ifs with hkey
        · have hne : lookup key (keyed log) ≠ none := by
            rw [← hlookup, ne_eq, lookup_eq_none, ← hkey]
            exact not_not_intro hmem
          obtain ⟨c, hc⟩ := Option.ne_none_iff_exists'.mp hne
          rw [hc, Option.some_or]
        · rw [Option.or_none]
      · have hne : ∀ d ∈ firstRows log, d.1 ≠ row.getPrimaryKey := fun d hd heq =>
          hmem (List.mem_map.mpr ⟨d, hd, heq⟩)
        refine ⟨sorted_putCell hsorted hne, fun key => ?_⟩
        rw [lookup_putCell hsorted hne, hlookup, lookup_append]

lemma mem_keys_firstRows (log : List UserInfo) (key : UInt32) :
    key ∈ (firstRows log).map Prod.fst ↔ key ∈ log.map UserInfo.getPrimaryKey := by
  rw [← not_iff_not, ← lookup_eq_none, (firstRows_spec log).2, lookup_eq_none, map_fst_keyed]

lemma firstRows_eq_nil {log : List UserInfo} : firstRows log = [] ↔ log = [] := by
  refine ⟨fun h => ?_, fun h => by rw [h]; rfl⟩
  rw [List.eq_nil_iff_forall_not_mem]
  intro row hrow
  have hkey := (mem_keys_firstRows log _).mpr (List.mem_map_of_mem hrow)
  rw [h] at hkey
  exact List.not_mem_nil hkey

lemma mem_firstRows {log : List UserInfo} {c : UInt32 × UserInfo} (h : c ∈ firstRows log) :
    c ∈ keyed log := by
  obtain ⟨hsorted, hlookup⟩ := firstRows_spec log
  have hfind : lookup c.1 (firstRows log) = some c := hsorted.lookup_eq_some.mpr ⟨h, rfl⟩
  rw [hlookup] at hfind
  exact List.mem_of_find?_eq_some hfind

/-! ## What the tree answers -/

namespace FirstLog

def reply : Statement → List UserInfo → Said
  | .insert row, log => (if row.getPrimaryKey ∈ log.map UserInfo.getPrimaryKey then
      .duplicateKey else .executeSuccess, [])
  | .select, log => (.executeSuccess, if log = [] then bytesOf "no entries found\n"
      else (firstRows log).flatMap fun c => c.2.line)

def evaluate (c : Statement) (log : List UserInfo) : Except Fault (Said × List UserInfo) :=
  .ok (reply c log, log ++ c.rows)

def run (p : ClientProcess) (log : List UserInfo) : Except Fault (List Said × List UserInfo) :=
  runAll evaluate p.statements log

/-- The replies of a process. -/
def replies (p : ClientProcess) (log : List UserInfo) : List Said :=
  Runs.replyAll reply Statement.rows p.statements log

lemma run_eq (p : ClientProcess) (log : List UserInfo) :
    run p log = .ok (replies p log, log ++ p.rows) :=
  Runs.runAll_replyAll (fun _ _ _ => rfl) le_rfl

end FirstLog

/-- The cell of a row. -/
def storedCell (c : UInt32 × UserInfo) : UInt32 × Row := (c.1, c.2.serialize)

lemma map_storedCell_putCell (c : UInt32 × UserInfo) (l : List (UInt32 × UserInfo)) :
    (putCell c l).map storedCell = putCell (storedCell c) (l.map storedCell) :=
  List.map_orderedInsert _ _ storedCell l c (fun _ _ => Iff.rfl) fun _ _ => Iff.rfl

lemma map_fst_storedCell (l : List (UInt32 × UserInfo)) :
    (l.map storedCell).map Prod.fst = l.map Prod.fst := by
  rw [List.map_map]
  rfl

lemma printRows_storedCell : ∀ {l : List (UInt32 × UserInfo)}, (∀ c ∈ l, c.2.Ends) →
    printRows (l.map storedCell) = .ok (l.flatMap fun c => c.2.line)
  | [], _ => rfl
  | c :: l, h => by
      obtain ⟨str, hstr, hline⟩ := (h c List.mem_cons_self).exists_line
      rw [List.map_cons, printRows, storedCell, UserInfo.deserialize_serialize, ok_bind, hstr,
        ok_bind, printRows_storedCell fun d hd => h d (List.mem_cons_of_mem _ hd), ok_bind, hline]
      rfl

/-- A row that can be printed, with one of these keys. -/
def UserInfo.Among (keys : List UInt32) (row : UserInfo) : Prop :=
  row.Ends ∧ row.getPrimaryKey ∈ keys

/-- The dictionary has the first rows of the log. -/
structure Dictionary.HasFirst (keys : List UInt32) (log : List UserInfo) (D : Dictionary) :
    Prop where
  steady : D.Steady mainParams
  bulky : D.tree.height ≠ 0 → Bulky (mainParams.leafCapacity / 2) D.tree.height D.tree.tree
  cells : D.cells = (firstRows log).map storedCell
  among : ∀ row ∈ log, row.Among keys

namespace Dictionary.HasFirst

variable {D : Dictionary} {keys : List UInt32} {log : List UserInfo}

lemma create (keys : List UInt32) : HasFirst keys [] (.create mainParams) :=
  ⟨create_steady mainParams_valid, fun h => absurd rfl h, rfl,
    fun _ hrow => absurd hrow List.not_mem_nil⟩

lemma mem_keys (h : D.HasFirst keys log) {key : UInt32} :
    key ∈ D.cells.map Prod.fst ↔ key ∈ log.map UserInfo.getPrimaryKey := by
  rw [h.cells, map_fst_storedCell, mem_keys_firstRows]

lemma ends_firstRows (h : D.HasFirst keys log) : ∀ c ∈ firstRows log, c.2.Ends := by
  intro c hc
  obtain ⟨row, hrow, rfl⟩ := List.mem_map.mp (mem_firstRows hc)
  exact (h.among row hrow).1

lemma printable (h : D.HasFirst keys log) : D.Printable := by
  intro c hc
  rw [h.cells] at hc
  obtain ⟨d, hd, rfl⟩ := List.mem_map.mp hc
  obtain ⟨str, hstr, -⟩ := (h.ends_firstRows d hd).exists_line
  exact ⟨d.2, rfl, str, hstr⟩

lemma among_concat (h : D.HasFirst keys log) {row : UserInfo} (hrow : row.Among keys) :
    ∀ u ∈ log ++ [row], u.Among keys := by
  intro u hu
  rcases List.mem_append.mp hu with hu | hu
  · exact h.among u hu
  · rwa [List.mem_singleton.mp hu]

/-- A row under a key that is there. -/
lemma same (h : D.HasFirst keys log) {row : UserInfo} (hrow : row.Among keys)
    (hmem : row.getPrimaryKey ∈ D.cells.map Prod.fst) : D.HasFirst keys (log ++ [row]) := by
  refine ⟨h.steady, h.bulky, ?_, h.among_concat hrow⟩
  rw [h.mem_keys, ← mem_keys_firstRows] at hmem
  rw [firstRows_concat, addFirst, if_pos hmem]
  exact h.cells

/-- A row under a new key. -/
lemma put (h : D.HasFirst keys log) {row : UserInfo} (hrow : row.Among keys)
    (hne : row.getPrimaryKey ∉ D.cells.map Prod.fst) :
    (D.put (row.getPrimaryKey, row.serialize)).HasFirst keys (log ++ [row]) := by
  refine ⟨h.steady.put hne, h.steady.put_bulky, ?_, h.among_concat hrow⟩
  rw [(h.steady.wf.put (c := (row.getPrimaryKey, row.serialize)) hne).2, h.cells]
  rw [h.mem_keys, ← mem_keys_firstRows] at hne
  rw [firstRows_concat, addFirst, if_neg hne, map_storedCell_putCell]
  rfl

/-- So many keys fit the page table, in every order. -/
lemma numPages_le (h : D.HasFirst keys log) (hkeys : keys.length ≤ 27860) :
    D.numPages ≤ tableMaxPages := by
  have hcells : D.cells.length ≤ keys.length := by
    refine h.steady.wf.length_cells_le fun key hkey => ?_
    obtain ⟨row, hrow, rfl⟩ := List.mem_map.mp (h.mem_keys.mp hkey)
    exact (h.among row hrow).2
  exact (h.steady.numPages_le h.bulky).trans
    ((mainParams_edgePages_iff .left _).mpr (hcells.trans hkeys))

end Dictionary.HasFirst

section

variable {keys : List UInt32} (hkeys : keys.length ≤ 27860)

include hkeys

/-- **One command on the tree.** -/
theorem evaluate_hasFirst {S : Session} {D : Dictionary} {log : List UserInfo}
    (hmirrors : S.Mirrors D) (hfirst : D.HasFirst keys log) {c : Statement}
    (hc : ∀ row ∈ c.rows, row.Among keys) :
    Prog.Agree (fun S log => ∃ D, Session.Mirrors S D ∧ D.HasFirst keys log) (Session.evaluate c S)
      (FirstLog.evaluate c log) := by
  cases c with
  | insert row =>
      have hrow : row.Among keys := hc row (List.mem_singleton_self row)
      rw [Session.evaluate, FirstLog.evaluate, FirstLog.reply]
      show Prog.Agree _ (Command.evaluate S (.insert row) >>= _) _
      rcases evaluate_insert hmirrors hfirst.steady row with
        ⟨hmem, S', hS', heval⟩ | ⟨hne, ⟨S', hS', -, heval⟩ | ⟨hfull, -⟩⟩
      · rw [if_pos (hfirst.mem_keys.mp hmem), heval, ok_bind]
        exact ⟨rfl, D, hS', hfirst.same hrow hmem⟩
      · rw [if_neg (hfirst.mem_keys.not.mp hne), heval, ok_bind]
        exact ⟨rfl, _, hS', hfirst.put hrow hne⟩
      · exact absurd ((hfirst.put hrow hne).numPages_le hkeys) (not_le.mpr hfull)
  | select =>
      obtain ⟨S', hS', heval⟩ := evaluate_select hmirrors hfirst.steady
        (hfirst.cells ▸ printRows_storedCell hfirst.ends_firstRows)
      have hnil : D.cells.length = 0 ↔ log = [] := by
        rw [hfirst.cells, List.length_map, List.length_eq_zero_iff, firstRows_eq_nil]
      have hout : (if D.cells.length = 0 then bytesOf "no entries found\n" else [])
          ++ ((firstRows log).flatMap fun c => c.2.line) = (FirstLog.reply .select log).2 := by
        by_cases hlog : log = []
        · rw [if_pos (hnil.mpr hlog), hlog]
          rfl
        · rw [if_neg (hnil.not.mpr hlog), List.nil_append]
          exact (if_neg hlog).symm
      rw [Session.evaluate, FirstLog.evaluate]
      show Prog.Agree _ (Command.evaluate S .select >>= _) _
      rw [heval, ok_bind, hout]
      refine ⟨rfl, D, hS', ?_⟩
      rw [Statement.rows, List.append_nil]
      exact hfirst

/-! ## Processes -/

/-- The file of such a tree, or none yet. -/
def TreeFile (keys : List UInt32) (log : List UserInfo) (file : Option (List UInt8)) : Prop :=
  ∃ D, Found file D ∧ D.HasFirst keys log

/-- **One process on the tree.** -/
theorem TreeFile.run {log : List UserInfo} {file : Option (List UInt8)}
    (h : TreeFile keys log file) {p : ClientProcess} (hp : ∀ row ∈ p.rows, row.Among keys) :
    Prog.Agree (fun file log => TreeFile keys log file) (p.runTree file) (FirstLog.run p log) := by
  obtain ⟨D, hfound, hfirst⟩ := h
  obtain ⟨S, hS, hmirrors, -⟩ := initalize_found hfound p.counts p.blocks
  have halong :
      Along FirstLog.evaluate (fun _ c => ∀ row ∈ c.rows, row.Among keys) p.statements log :=
    @Runs.along_of_invariant _ _ _ _ FirstLog.evaluate (fun _ => True)
      (fun c => ∀ row ∈ c.rows, row.Among keys) _ (fun _ _ _ hc => ⟨hc, fun _ _ _ => trivial⟩)
      p.statements log trivial fun c hc row hrow => hp row (List.mem_flatMap.mpr ⟨c, hc, hrow⟩)
  have hagree := @Runs.runAll_related _ _ _ _ _
    (fun S log => ∃ D, Session.Mirrors S D ∧ D.HasFirst keys log) Session.evaluate FirstLog.evaluate
    (fun _ c => ∀ row ∈ c.rows, row.Among keys)
    (fun _ _ _ ⟨_, hrel, hfirst⟩ hc => evaluate_hasFirst hkeys hrel hfirst hc)
    p.statements S log ⟨D, hmirrors, hfirst⟩ halong
  have hrun := FirstLog.run_eq p log
  rw [show runAll FirstLog.evaluate p.statements log = _ from hrun] at hagree
  obtain ⟨S', hcommands, D', hmirrors', hfirst'⟩ := hagree.exists_ok
  obtain ⟨file', hdestroy, hsaved⟩ := hmirrors'.exists_saved
  rw [hrun, ClientProcess.runTree, hS, ok_bind, hcommands, ok_bind]
  show Prog.Agree _ (S'.tree.destroy >>= _) _
  rw [hdestroy, ok_bind]
  exact ⟨rfl, D', ⟨hsaved, hfirst'.steady, hfirst'.printable⟩, hfirst'⟩

end

/-! ## Both engines -/

/-- What the table and the tree say to a command after the rows of `log`. -/
def Corresponds (log : List UserInfo) : Statement → Said → Said → Prop
  | .insert row, table, tree => table = (.executeSuccess, []) ∧
      tree = (if row.getPrimaryKey ∈ log.map UserInfo.getPrimaryKey then .duplicateKey
        else .executeSuccess, [])
  | .select, table, tree => table = (.executeSuccess, log.flatMap UserInfo.line) ∧
      ∃ rows : List UserInfo, rows.Pairwise (fun a b => a.getPrimaryKey < b.getPrimaryKey) ∧
        (∀ u, u ∈ rows ↔
          log.find? (fun v => decide (v.getPrimaryKey = u.getPrimaryKey)) = some u) ∧
        tree = (.executeSuccess, if log = [] then bytesOf "no entries found\n"
          else rows.flatMap UserInfo.line)

lemma lookup_keyed (key : UInt32) (log : List UserInfo) : lookup key (keyed log)
    = (log.find? fun v => decide (v.getPrimaryKey = key)).map fun v => (v.getPrimaryKey, v) := by
  rw [lookup, keyed, List.find?_map]
  rfl

lemma corresponds_reply (c : Statement) (log : List UserInfo) :
    Corresponds log c (UserLog.reply c log) (FirstLog.reply c log) := by
  cases c with
  | insert row => exact ⟨rfl, rfl⟩
  | select =>
      obtain ⟨hsorted, hlookup⟩ := firstRows_spec log
      have hkeys : ∀ c ∈ firstRows log, c = (c.2.getPrimaryKey, c.2) := by
        intro c hc
        obtain ⟨row, -, rfl⟩ := List.mem_map.mp (mem_firstRows hc)
        rfl
      refine ⟨rfl, (firstRows log).map Prod.snd, ?_, fun u => ?_, ?_⟩
      · rw [List.pairwise_map]
        refine hsorted.imp_of_mem ?_
        intro a b ha hb hlt
        rw [hkeys a ha, hkeys b hb] at hlt
        exact hlt
      · have hfind := hlookup u.getPrimaryKey
        rw [lookup_keyed] at hfind
        constructor
        · intro hu
          obtain ⟨c, hc, rfl⟩ := List.mem_map.mp hu
          have hsome : lookup c.2.getPrimaryKey (firstRows log) = some c := by
            refine hsorted.lookup_eq_some.mpr ⟨hc, ?_⟩
            rw [hkeys c hc]
          rw [hsome] at hfind
          obtain ⟨v, hv, heq⟩ := Option.map_eq_some_iff.mp hfind.symm
          rw [hv, ← heq]
        · intro hu
          rw [hu] at hfind
          exact List.mem_map.mpr ⟨_, (hsorted.lookup_eq_some.mp hfind).1, rfl⟩
      · rw [FirstLog.reply, List.flatMap_map]

/-- The rows are those of the commands. -/
lemma flatMap_rows_congr {ps qs : List ClientProcess}
    (h : ps.map ClientProcess.statements = qs.map ClientProcess.statements) :
    ps.flatMap ClientProcess.rows = qs.flatMap ClientProcess.rows := by
  have hrows : ∀ l : List ClientProcess, l.map ClientProcess.rows
      = (l.map ClientProcess.statements).map fun cs => cs.flatMap Statement.rows := fun l => by
    rw [List.map_map]
    rfl
  rw [List.flatMap_def, List.flatMap_def, hrows, hrows, h]

/-- **The two engines**, given the same commands over any number of processes.  The table answers
every insertion with success, the tree the first one of each number; the rows that the tree prints
are those of the table's with a new number, sorted.

The table has room for the rows, the page table for the keys, their strings end, as those of lines
do (`UserInfo.IsParsed.ends`), and the first process leaves a table that is not empty. -/
theorem engines_agree {ps qs : List ClientProcess}
    (hsame : ps.map ClientProcess.statements = qs.map ClientProcess.statements)
    (hends : ∀ row ∈ ps.flatMap ClientProcess.rows, row.Ends)
    (hfirst : ∀ p ∈ ps.head?, p.rows ≠ [])
    (hrows : (ps.flatMap ClientProcess.rows).length ≤ tableRoom)
    (hkeys : ((ps.flatMap ClientProcess.rows).map UserInfo.getPrimaryKey).dedup.length ≤ 27860) :
    ∃ table tree file file', runAll ClientProcess.runTable ps [] = .ok (table, file) ∧
      runAll ClientProcess.runTree qs none = .ok (tree, file') ∧
      ∀ i p, ps[i]? = some p → ∀ j c, p.statements[j]? = some c → ∃ said said',
        (table[i]?.bind fun replies => replies[j]?) = some said ∧
        (tree[i]?.bind fun replies => replies[j]?) = some said' ∧
        Corresponds ((ps.take i).flatMap ClientProcess.rows
          ++ (p.statements.take j).flatMap Statement.rows) c said said' := by
  set keys := ((ps.flatMap ClientProcess.rows).map UserInfo.getPrimaryKey).dedup
  -- the table
  have hlog : runAll UserLog.run ps []
      = .ok (Runs.replyAll UserLog.replies ClientProcess.rows ps [],
          ps.flatMap ClientProcess.rows) :=
    Runs.runAll_replyAll UserLog.run_eq hrows
  have htable := @Runs.runAll_related _ _ _ _ _ (fun file log => LogFile log file)
    ClientProcess.runTable UserLog.run UserLog.Admits (fun _ _ _ hrel hp => hrel.run hp) ps [] []
    LogFile.nil (UserLog.along_admits hrows hends (Or.inr hfirst))
  rw [hlog] at htable
  obtain ⟨file, hfile, -⟩ := htable.exists_ok
  -- the tree
  have hsameRows := flatMap_rows_congr hsame
  have hfirstLog : runAll FirstLog.run qs []
      = .ok (Runs.replyAll FirstLog.replies ClientProcess.rows qs [],
          [] ++ qs.flatMap ClientProcess.rows) :=
    Runs.runAll_replyAll (fun p log _ => FirstLog.run_eq p log) le_rfl
  have hamong : ∀ q ∈ qs, ∀ row ∈ q.rows, row.Among keys := by
    intro q hq row hrow
    have hmem : row ∈ ps.flatMap ClientProcess.rows := by
      rw [hsameRows]
      exact List.mem_flatMap.mpr ⟨q, hq, hrow⟩
    exact ⟨hends row hmem, List.mem_dedup.mpr (List.mem_map_of_mem hmem)⟩
  have htree := @Runs.runAll_related _ _ _ _ _ (fun file log => TreeFile keys log file)
    ClientProcess.runTree FirstLog.run (fun _ p => ∀ row ∈ p.rows, row.Among keys)
    (fun _ _ _ hrel hp => hrel.run hkeys hp) qs none []
    ⟨_, Found.none, Dictionary.HasFirst.create keys⟩
    (@Runs.along_of_invariant _ _ _ _ FirstLog.run (fun _ => True) _ _
      (fun _ _ _ hp => ⟨hp, fun _ _ _ => trivial⟩) qs [] trivial hamong)
  rw [hfirstLog] at htree
  obtain ⟨file', hfile', -⟩ := htree.exists_ok
  refine ⟨_, _, file, file', hfile, hfile', fun i p hp j c hc => ?_⟩
  obtain ⟨q, hq, hstatements⟩ : ∃ q, qs[i]? = some q ∧ q.statements = p.statements := by
    have hmap : (qs.map ClientProcess.statements)[i]? = some p.statements := by
      rw [← hsame, List.getElem?_map, hp]
      rfl
    rw [List.getElem?_map] at hmap
    exact Option.map_eq_some_iff.mp hmap
  have htake : (qs.take i).flatMap ClientProcess.rows = (ps.take i).flatMap ClientProcess.rows :=
    flatMap_rows_congr (by rw [List.map_take, List.map_take, hsame])
  have hc' : q.statements[j]? = some c := hstatements ▸ hc
  refine ⟨_, _, ?_, ?_, corresponds_reply c _⟩
  · rw [Runs.getElem?_replyAll _ _ _ hp, Option.bind_some, UserLog.replies,
      Runs.getElem?_replyAll _ _ _ hc]
    rfl
  · rw [Runs.getElem?_replyAll _ _ _ hq, Option.bind_some, FirstLog.replies,
      Runs.getElem?_replyAll _ _ _ hc', htake, hstatements]
    rfl

theorem engines_agree_two : ∃ table tree file file',
    runAll ClientProcess.runTable twoProcesses [] = .ok (table, file) ∧
      runAll ClientProcess.runTree twoProcesses none = .ok (tree, file') ∧
      ∀ i p, twoProcesses[i]? = some p → ∀ j c, p.statements[j]? = some c → ∃ said said',
        (table[i]?.bind fun replies => replies[j]?) = some said ∧
        (tree[i]?.bind fun replies => replies[j]?) = some said' ∧
        Corresponds ((twoProcesses.take i).flatMap ClientProcess.rows
          ++ (p.statements.take j).flatMap Statement.rows) c said said' :=
  engines_agree rfl twoProcesses_ends (by decide) (by decide) (by decide)

end DbToy
