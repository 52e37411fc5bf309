import DbToy.Lib.MapVal
import DbToy.Listing
import DbToy.PageTable
import DbToy.SavedCells

/-!
# What was in memory before

The constructor of a row clears the first byte of each string, `strcpy` stops behind the NUL, and
`serialize` stores both arrays in full.  A stored string that does not fill its column is followed
by what happened to be in memory (`InsertLine.row`), and with it goes into the file.

Two runs of the shell on the same lines, with other bytes in memory, build trees of the same shape
with the same keys: the page table overflows in both or in neither.  `saved_cells_independent_iff`
says for which lines the rows are the same as well.
-/

namespace DbToy

open Bytes SearchTree Istream

/-! ## Rows -/

/-- A string in its column, with what the array had behind its end. -/
def column {n : ℕ} (str : List UInt8) (a : CharArray n) : List UInt8 :=
  str ++ 0 :: a.bytes.drop (str.length + 1)

namespace InsertLine

/-- The row that the line stores, with `mem` in memory. -/
def row (l : InsertLine) (mem : Uninit) : Row :=
  encodeLE 4 l.key.toNat ++ column l.username.bytes mem.username ++ column l.email.bytes mem.email

/-- Both strings fill their columns up to the NUL. -/
def FillsColumns (l : InsertLine) : Prop :=
  l.username.bytes.length + 1 = colUsernameSize ∧ l.email.bytes.length + 1 = colEmailSize

variable (l : InsertLine) (mem : Uninit)

/-- A word copied into a new string. -/
lemma strcpy_clear {n : ℕ} (a : CharArray n) (w : Word) (h : w.bytes.length < n) :
    ∃ b, a.clear.strcpy w.bytes = .ok b ∧ b.bytes = column w.bytes a := by
  obtain ⟨b, hb, hbytes⟩ := a.clear.strcpy_eq h
  refine ⟨b, hb, ?_⟩
  rw [hbytes, w.cString_eq, column, CharArray.clear, List.drop_set_of_lt (Nat.succ_pos _)]

/-- `from_string` makes the row. -/
lemma fromString_row : ∃ u, (UserInfo.new mem).fromString mem (l.bytes.drop 6) = .ok u ∧
    u.HasFields l.id.value l.username.bytes l.email.bytes ∧ u.serialize = l.row mem := by
  obtain ⟨a, ha, habytes⟩ := strcpy_clear mem.username l.username l.username.length_lt
  obtain ⟨b, hb, hbbytes⟩ := strcpy_clear mem.email l.email l.email.length_lt
  have hread : (UserInfo.readFields mem (l.bytes.drop 6)).1
      = (l.id.value, l.username.bytes, l.email.bytes) := l.fieldsOf_bytes mem
  have hfit : UserInfo.FitColumns l.username.bytes l.email.bytes :=
    ⟨l.username.length_lt, l.email.length_lt⟩
  obtain ⟨u, hu, hfields⟩ := UserInfo.fromString_of_fit (UserInfo.new mem) hread hfit
  refine ⟨u, hu, hfields, ?_⟩
  have hrow : (UserInfo.new mem).fromString mem (l.bytes.drop 6)
      = .ok ⟨Int32.ofInt l.id.value, a, b⟩ := by
    simp only [UserInfo.fromString, UserInfo.new, hread, assertThat_of hfit.1, assertThat_of hfit.2,
      ha, hb, ok_bind]
  cases hu.symm.trans hrow
  rw [UserInfo.serialize, habytes, hbbytes]
  rfl

end InsertLine

/-- Memory with one byte all over. -/
def Uninit.filled (b : UInt8) : Uninit where
  field1 := 0
  username := ⟨List.replicate colUsernameSize b, List.length_replicate⟩
  email := ⟨List.replicate colEmailSize b, List.length_replicate⟩

section Column

variable {n : ℕ} {str : List UInt8}

lemma column_of_full (h : str.length + 1 = n) (a : CharArray n) : column str a = str ++ [0] := by
  rw [column, h, List.drop_of_length_le a.length_bytes.le]

lemma length_column (h : str.length < n) (a : CharArray n) : (column str a).length = n := by
  rw [column, List.length_append, List.length_cons, List.length_drop, a.length_bytes]
  omega

/-- Behind a string that does not fill its column there is the last byte of the array. -/
lemma full_of_column (h : str.length < n) {b c : UInt8} (hne : b ≠ c)
    (heq : column (n := n) str ⟨List.replicate n b, List.length_replicate⟩
      = column (n := n) str ⟨List.replicate n c, List.length_replicate⟩) : str.length + 1 = n := by
  by_contra hfull
  have hdrop := (List.cons.inj (List.append_cancel_left heq)).2
  rw [List.drop_replicate, List.drop_replicate] at hdrop
  obtain ⟨k, hk⟩ : ∃ k, n - (str.length + 1) = k + 1 := ⟨n - (str.length + 1) - 1, by omega⟩
  rw [hk] at hdrop
  exact hne (List.cons.inj hdrop).1

end Column

namespace InsertLine

variable {l : InsertLine}

/-- The row of a line that fills its columns has nothing from memory. -/
lemma FillsColumns.row_eq (h : l.FillsColumns) (mem mem' : Uninit) : l.row mem = l.row mem' := by
  rw [row, row, column_of_full h.1, column_of_full h.1, column_of_full h.2, column_of_full h.2]

/-- Every other row does. -/
lemma fills_of_row {b c : UInt8} (hne : b ≠ c)
    (h : l.row (Uninit.filled b) = l.row (Uninit.filled c)) : l.FillsColumns := by
  have hlen : ∀ a, (column (n := colUsernameSize) l.username.bytes a).length = colUsernameSize :=
    length_column l.username.length_lt
  rw [row, row, List.append_assoc, List.append_assoc] at h
  obtain ⟨husername, hemail⟩ := List.append_inj (List.append_cancel_left h)
    ((hlen _).trans (hlen _).symm)
  exact ⟨full_of_column l.username.length_lt hne husername,
    full_of_column l.email.length_lt hne hemail⟩

end InsertLine

/-- The cells that the lines give, each with its own memory. -/
def lineCells (memory : ℕ → Uninit) (lines : List InsertLine) : List (UInt32 × Row) :=
  lines.mapIdx fun i l => (l.key, l.row (memory i))

lemma map_fst_lineCells (memory : ℕ → Uninit) (lines : List InsertLine) :
    (lineCells memory lines).map Prod.fst = lines.map InsertLine.key := by
  refine List.ext_getElem? ?_
  intro i
  rw [lineCells, List.getElem?_map, List.getElem?_map, List.getElem?_mapIdx, Option.map_map]
  rfl

/-- Under a key there is the row of the first line with it. -/
lemma lookup_lineCells (mem : Uninit) (lines : List InsertLine) (key : UInt32) :
    lookup key (lineCells (fun _ => mem) lines)
      = (firstInsert lines key).map fun l => (l.key, l.row mem) := by
  have hmap : lineCells (fun _ => mem) lines = lines.map fun l => (l.key, l.row mem) :=
    List.mapIdx_eq_iff.mpr fun i => List.getElem?_map
  rw [hmap, lookup, List.find?_map]
  rfl

/-! ## The dictionary -/

namespace Dictionary

/-- The dictionary with a cell more, unless its key is there. -/
def add (D : Dictionary) (c : UInt32 × Row) : Dictionary :=
  if c.1 ∈ D.cells.map Prod.fst then D else D.put c

def addAll (D : Dictionary) (cells : List (UInt32 × Row)) : Dictionary := cells.foldl add D

variable {D : Dictionary} {c : UInt32 × Row}

lemma add_of_mem (h : c.1 ∈ D.cells.map Prod.fst) : D.add c = D := if_pos h

lemma add_of_notMem (h : c.1 ∉ D.cells.map Prod.fst) : D.add c = D.put c := if_neg h

lemma addAll_cons (D : Dictionary) (c : UInt32 × Row) (cells : List (UInt32 × Row)) :
    D.addAll (c :: cells) = (D.add c).addAll cells := rfl

lemma addAll_concat (D : Dictionary) (cells : List (UInt32 × Row)) (c : UInt32 × Row) :
    D.addAll (cells ++ [c]) = (D.addAll cells).add c :=
  List.foldl_concat _ _ _ _

lemma WF.add (hD : D.WF) (c : UInt32 × Row) : (D.add c).WF := by
  by_cases hc : c.1 ∈ D.cells.map Prod.fst
  · rwa [add_of_mem hc]
  · rw [add_of_notMem hc]
    exact (hD.put hc).1

lemma mem_keys_add (hD : D.WF) {key : UInt32} : key ∈ (D.add c).cells.map Prod.fst ↔
    key = c.1 ∨ key ∈ D.cells.map Prod.fst := by
  by_cases hc : c.1 ∈ D.cells.map Prod.fst
  · rw [add_of_mem hc]
    exact ⟨Or.inr, fun h => h.elim (fun heq => heq ▸ hc) id⟩
  · rw [add_of_notMem hc, (hD.put hc).2, List.mem_map, List.mem_map]
    constructor
    · rintro ⟨d, hd, rfl⟩
      exact (mem_putCell.mp hd).imp (congrArg Prod.fst) fun h => ⟨d, h, rfl⟩
    · rintro (rfl | ⟨d, hd, rfl⟩)
      · exact ⟨c, mem_putCell.mpr (Or.inl rfl), rfl⟩
      · exact ⟨d, mem_putCell.mpr (Or.inr hd), rfl⟩

/-- A dictionary keeps the rows that come first. -/
lemma Keeps.add {rows : List (UInt32 × Row)} (hD : D.WF) (h : Keeps rows D) (c : UInt32 × Row) :
    Keeps (rows ++ [c]) (D.add c) := by
  by_cases hc : c.1 ∈ D.cells.map Prod.fst
  · rw [add_of_mem hc]
    exact h.append_of_mem hc
  · rw [add_of_notMem hc]
    exact h.put hD hc

lemma Keeps.addAll : ∀ (cells : List (UInt32 × Row)) {rows : List (UInt32 × Row)}
    {D : Dictionary}, D.WF → Keeps rows D → Keeps (rows ++ cells) (D.addAll cells)
  | [], rows, D, _, h => by rwa [List.append_nil]
  | c :: cells, rows, D, hD, h => by
      have hrest := Keeps.addAll cells (hD.add c) (h.add hD c)
      rwa [List.append_assoc, List.singleton_append] at hrest

/-! ### Shape -/

/-- The dictionary with its rows replaced. -/
def mapVal (f : Row → Row) (D : Dictionary) : Dictionary := { D with tree := D.tree.mapVal f }

lemma mem_keys_mapVal (f : Row → Row) (D : Dictionary) (key : UInt32) :
    key ∈ (D.mapVal f).cells.map Prod.fst ↔ key ∈ D.cells.map Prod.fst := by
  show key ∈ (D.tree.mapVal f).cells.map Prod.fst ↔ _
  rw [Rooted.cells_mapVal, map_fst_mapCell]
  rfl

lemma put_mapVal (f : Row → Row) (D : Dictionary) (c : UInt32 × Row) :
    (D.mapVal f).put (mapCell f c) = (D.put c).mapVal f := by
  have h := Rooted.insert_mapVal (L := D.params.leafCapacity) (I := D.params.innerCapacity) f c
    D.numPages D.tree
  simp only [put, mapVal, h]

lemma add_mapVal (f : Row → Row) (D : Dictionary) (c : UInt32 × Row) :
    (D.mapVal f).add (mapCell f c) = (D.add c).mapVal f := by
  have hmem : (mapCell f c).1 ∈ (D.mapVal f).cells.map Prod.fst ↔ c.1 ∈ D.cells.map Prod.fst :=
    D.mem_keys_mapVal f c.1
  by_cases hc : c.1 ∈ D.cells.map Prod.fst
  · rw [add_of_mem hc, add_of_mem (hmem.mpr hc)]
  · rw [add_of_notMem hc, add_of_notMem (hmem.not.mpr hc), put_mapVal]

lemma addAll_mapVal (f : Row → Row) : ∀ (cells : List (UInt32 × Row)) (D : Dictionary),
    (D.mapVal f).addAll (cells.map (mapCell f)) = (D.addAll cells).mapVal f
  | [], _ => rfl
  | c :: cells, D => by
      have ih := addAll_mapVal f cells (D.add c)
      rw [← add_mapVal] at ih
      exact ih

/-- **The number of pages depends on the keys only.** -/
theorem numPages_addAll {cells cells' : List (UInt32 × Row)}
    (h : cells.map Prod.fst = cells'.map Prod.fst) (D : Dictionary) :
    (D.addAll cells).numPages = (D.addAll cells').numPages := by
  have hblank : ∀ l : List (UInt32 × Row), l.map (mapCell fun _ => [])
      = (l.map Prod.fst).map fun key => (key, []) := by
    intro l
    rw [List.map_map]
    rfl
  have hcells := congrArg Dictionary.numPages (addAll_mapVal (fun _ => []) cells D)
  have hcells' := congrArg Dictionary.numPages (addAll_mapVal (fun _ => []) cells' D)
  rw [hblank, h, ← hblank] at hcells
  exact hcells.symm.trans hcells'

lemma numPages_le_add (D : Dictionary) (c : UInt32 × Row) : D.numPages ≤ (D.add c).numPages := by
  by_cases hc : c.1 ∈ D.cells.map Prod.fst
  · rw [add_of_mem hc]
  · rw [add_of_notMem hc, put_numPages]
    exact Nat.le_add_right _ _

end Dictionary

/-! ## Runs -/

section

variable {shell : Shell} {D : Dictionary}

/-- **One line**: its row is added, or is one too many for the page table. -/
theorem Shell.Holds.turn_add (h : shell.Holds D) {l : InsertLine} (hcmd : shell.cmd = l.bytes) :
    (∃ session said, shell.turn = .ok (.running (shell.after session said)) ∧
      (shell.after session said).Holds (D.add (l.key, l.row (shell.memory 0)))) ∨
    (tableMaxPages < (D.add (l.key, l.row (shell.memory 0))).numPages ∧
      shell.turn = .error (.pageIndex tableMaxPages)) := by
  obtain ⟨row, hrow, hfields, hserialize⟩ := l.fromString_row (shell.memory 0)
  have hkey : row.getPrimaryKey = l.key := hfields.getPrimaryKey
  have hparse : parse (shell.memory 0) shell.cmd = .ok (some (.insert row), []) := by
    rw [hcmd, parse_insert l.isInsert, hrow, ok_bind]
  have hrun := evaluate_insert h.mirrors h.steady row
  rw [← hkey, ← hserialize]
  rcases hrun with ⟨hmem, S', hmirrors, heval⟩ | ⟨hne, ⟨S', hmirrors, -, heval⟩ | ⟨hfull, heval⟩⟩
  · rw [turn_of_parse hparse heval, Except.map, finish_result, Dictionary.add_of_mem hmem]
    exact Or.inl ⟨S', _, rfl, h.same hmirrors _⟩
  · rw [turn_of_parse hparse heval, Except.map, finish_result, Dictionary.add_of_notMem hne]
    exact Or.inl ⟨S', _, rfl, h.put hfields hne hmirrors _⟩
  · rw [turn_of_parse hparse heval, Dictionary.add_of_notMem hne]
    exact Or.inr ⟨hfull, rfl⟩

end

section

variable {start : Shell} {stdin : List UInt8} {memory : ℕ → Uninit} {lines : List InsertLine}
  {D : Dictionary} (hstart : start.HasRead 0 stdin memory) (hholds : start.Holds D)
  (hread : ∀ i l, lines[i]? = some l → lineAt stdin i = l.bytes)

include hstart hholds hread

/-- **A run** adds the rows of its lines, or the page table overflows. -/
theorem turns_addAll : ∀ n ≤ lines.length,
    (∃ shell, turns n (.running start) = .ok (.running shell) ∧ shell.HasRead n stdin memory ∧
      shell.Holds (D.addAll (lineCells memory (lines.take n)))) ∨
    (tableMaxPages < (D.addAll (lineCells memory (lines.take n))).numPages ∧
      turns n (.running start) = .error (.pageIndex tableMaxPages)) := by
  intro n hn
  induction n with
  | zero => exact Or.inl ⟨start, turns_zero _, hstart, by rwa [List.take_zero]⟩
  | succ n ih =>
      obtain ⟨l, hl⟩ : ∃ l, lines[n]? = some l := ⟨_, List.getElem?_eq_getElem (by omega)⟩
      have hcells : lineCells memory (lines.take (n + 1))
          = lineCells memory (lines.take n) ++ [(l.key, l.row (memory n))] := by
        rw [List.take_add_one, hl, lineCells, lineCells, Option.toList_some, List.mapIdx_concat,
          List.length_take, min_eq_left (by omega)]
      rw [hcells, Dictionary.addAll_concat]
      rcases ih (by omega) with ⟨shell, hshell, hhas, hholds'⟩ | ⟨hfull, hturns⟩
      · rw [turns_succ_of_running hshell]
        have hturn := hholds'.turn_add (hhas.cmd.trans (hread n l hl))
        rw [hhas.memory_zero] at hturn
        rcases hturn with ⟨session, said, hturn, hholds''⟩ | ⟨hfull, hturn⟩
        · exact Or.inl ⟨_, hturn, hhas.after session said, hholds''⟩
        · exact Or.inr ⟨hfull, hturn⟩
      · refine Or.inr ⟨hfull.trans_le (Dictionary.numPages_le_add _ _), ?_⟩
        rw [turns_succ, hturns, error_bind]

end

/-- Every line whose row is stored fills its columns. -/
def AllFill (D : Dictionary) (lines : List InsertLine) : Prop :=
  ∀ l, firstInsert lines l.key = some l → l.key ∉ D.cells.map Prod.fst → l.FillsColumns

lemma firstInsert_cons_self (l : InsertLine) (lines : List InsertLine) :
    firstInsert (l :: lines) l.key = some l :=
  List.find?_cons_of_pos (decide_eq_true rfl)

lemma firstInsert_cons_of_ne {l : InsertLine} {key : UInt32} (h : key ≠ l.key)
    (lines : List InsertLine) : firstInsert (l :: lines) key = firstInsert lines key :=
  List.find?_cons_of_neg (by simpa using h.symm)

/-- The row of the first line with a new key is in the dictionary. -/
lemma lookup_addAll {lines : List InsertLine} {D : Dictionary} (hD : D.WF) (mem : Uninit)
    {l : InsertLine} (hl : firstInsert lines l.key = some l)
    (hkey : l.key ∉ D.cells.map Prod.fst) :
    lookup l.key (D.addAll (lineCells (fun _ => mem) lines)).cells = some (l.key, l.row mem) := by
  have hkeeps : D.Keeps D.cells := fun _ => rfl
  rw [hkeeps.addAll (lineCells (fun _ => mem) lines) hD l.key, lookup_append,
    lookup_eq_none.mpr hkey, Option.none_or, lookup_lineCells, hl, Option.map_some]

/-- Rows that fill their columns make the same dictionary. -/
lemma addAll_of_allFill : ∀ {lines : List InsertLine} {D : Dictionary}, D.WF → AllFill D lines →
    ∀ memory memory', D.addAll (lineCells memory lines) = D.addAll (lineCells memory' lines)
  | [], _, _, _, _, _ => rfl
  | l :: lines, D, hD, h, memory, memory' => by
      have hadd : D.add (l.key, l.row (memory 0)) = D.add (l.key, l.row (memory' 0)) := by
        by_cases hl : l.key ∈ D.cells.map Prod.fst
        · rw [Dictionary.add_of_mem hl, Dictionary.add_of_mem hl]
        · rw [(h l (firstInsert_cons_self l lines) hl).row_eq (memory 0) (memory' 0)]
      have hrest : AllFill (D.add (l.key, l.row (memory 0))) lines := by
        intro m hm hkey
        rw [Dictionary.mem_keys_add hD, not_or] at hkey
        exact h m ((firstInsert_cons_of_ne hkey.1 lines).trans hm) hkey.2
      have ih := addAll_of_allFill (hD.add _) hrest (fun i => memory (i + 1))
        fun i => memory' (i + 1)
      rw [lineCells, lineCells, List.mapIdx_cons, List.mapIdx_cons, Dictionary.addAll_cons,
        Dictionary.addAll_cons, ← hadd]
      exact ih

/-! ## Files -/

/-- Whatever is in memory, the process that ends after so many turns leaves the same live cells. -/
def MemoryIndependent (file : Option (List UInt8)) (counts : ℕ → ℕ) (stdin : List UInt8) (n : ℕ) :
    Prop :=
  ∀ malloc memory malloc' memory', ∃ saved stdout saved' stdout',
    main file counts malloc memory stdin >>= turns n = .ok (.exited saved stdout) ∧
    main file counts malloc' memory' stdin >>= turns n = .ok (.exited saved' stdout') ∧
    SameCells saved saved'

section

variable {file : Option (List UInt8)} {D : Dictionary} (hfound : Found file D)
  {lines : List InsertLine} {stdin : List UInt8}
  (hread : ∀ i l, lines[i]? = some l → lineAt stdin i = l.bytes)
  (hexit : lineAt stdin lines.length = bytesOf ".exit")

include hfound hread hexit

/-- The lines either overflow the page table, or their rows are saved. -/
lemma saves_or_overflows (counts : ℕ → ℕ) (malloc : ℕ → Page) (memory : ℕ → Uninit) :
    (∃ saved stdout, main file counts malloc memory stdin >>= turns (lines.length + 1)
        = .ok (.exited saved stdout) ∧ Saved saved (D.addAll (lineCells memory lines))) ∨
    (tableMaxPages < (D.addAll (lineCells memory lines)).numPages ∧
      main file counts malloc memory stdin >>= turns (lines.length + 1)
        = .error (.pageIndex tableMaxPages)) := by
  obtain ⟨start, hmain, hhas, hholds⟩ := main_found hfound counts malloc memory stdin
  have hrun := turns_addAll hhas hholds hread lines.length le_rfl
  rw [hmain, ok_bind]
  rw [List.take_length] at hrun
  rcases hrun with ⟨shell, hshell, hhas', hholds'⟩ | ⟨hfull, hturns⟩
  · obtain ⟨saved, stdout, hturn, hsaved⟩ := hholds'.turn_saved (hhas'.cmd.trans hexit)
    exact Or.inl ⟨saved, stdout, (turns_succ_of_running hshell).trans hturn, hsaved⟩
  · refine Or.inr ⟨hfull, ?_⟩
    rw [turns_succ, hturns, error_bind]

section

variable {counts : ℕ → ℕ} {malloc : ℕ → Page} {memory : ℕ → Uninit}
  (hroom : ∀ id, main file counts malloc memory stdin >>= turns (lines.length + 1)
    ≠ .error (.pageIndex id))

include hroom

/-- What is in memory does not change the number of pages. -/
lemma saves_of_room (malloc' : ℕ → Page) (memory' : ℕ → Uninit) :
    ∃ saved stdout, main file counts malloc' memory' stdin >>= turns (lines.length + 1)
      = .ok (.exited saved stdout) ∧ Saved saved (D.addAll (lineCells memory' lines)) := by
  have hkeys : (lineCells memory lines).map Prod.fst = (lineCells memory' lines).map Prod.fst := by
    rw [map_fst_lineCells, map_fst_lineCells]
  rcases saves_or_overflows hfound hread hexit counts malloc memory with
    ⟨saved, stdout, -, hsaved⟩ | ⟨-, hrun⟩
  · have hle := hsaved.numPages_le
    rw [Dictionary.numPages_addAll hkeys] at hle
    exact (saves_or_overflows hfound hread hexit counts malloc' memory').resolve_right
      fun h => absurd h.1 (not_lt_of_ge hle)
  · exact absurd hrun (hroom tableMaxPages)

/-- Rows that fill their columns are saved the same. -/
lemma AllFill.memoryIndependent (hD : D.WF) (h : AllFill D lines) :
    MemoryIndependent file counts stdin (lines.length + 1) := by
  intro malloc₁ memory₁ malloc₂ memory₂
  obtain ⟨saved, stdout, hrun, hsaved⟩ := saves_of_room hfound hread hexit hroom malloc₁ memory₁
  obtain ⟨saved', stdout', hrun', hsaved'⟩ :=
    saves_of_room hfound hread hexit hroom malloc₂ memory₂
  rw [addAll_of_allFill hD h memory₂ memory₁] at hsaved'
  exact ⟨saved, stdout, saved', stdout', hrun, hrun', .of_saved hsaved hsaved'⟩

/-- A row that does not fill its columns is saved with the byte that is all over the memory. -/
lemma MemoryIndependent.allFill (hD : D.WF)
    (h : MemoryIndependent file counts stdin (lines.length + 1)) : AllFill D lines := by
  intro l hl hkey
  obtain ⟨saved, stdout, saved', stdout', hrun, hrun', hsame⟩ :=
    h malloc (fun _ => .filled 0) malloc (fun _ => .filled 1)
  obtain ⟨file₁, stdout₁, hrun₁, hsaved⟩ :=
    saves_of_room hfound hread hexit hroom malloc fun _ => .filled 0
  obtain ⟨file₂, stdout₂, hrun₂, hsaved'⟩ :=
    saves_of_room hfound hread hexit hroom malloc fun _ => .filled 1
  cases hrun.symm.trans hrun₁
  cases hrun'.symm.trans hrun₂
  have hlookup := lookup_addAll hD (.filled 0) hl hkey
  have hlookup' := lookup_addAll hD (.filled 1) hl hkey
  rw [hsaved.wf.sorted.lookup_eq_some] at hlookup
  rw [hsaved'.wf.sorted.lookup_eq_some] at hlookup'
  -- both rows are in the second file
  have hmem := hsame.mem_cells hsaved hsaved' hlookup.1
  have hrow := hsaved'.wf.sorted.eq_of_key hmem hlookup'.1 rfl
  exact InsertLine.fills_of_row (by decide) (Prod.mk.inj hrow).2

end

end

/-- **The saved cells do not depend on what was in memory** exactly if the strings of every row
that is stored fill their columns. -/
theorem saved_cells_independent_iff {file : Option (List UInt8)} {D : Dictionary}
    (hfound : Found file D) {lines : List InsertLine} {stdin : List UInt8}
    (hread : ∀ i l, lines[i]? = some l → lineAt stdin i = l.bytes)
    (hexit : lineAt stdin lines.length = bytesOf ".exit") {counts : ℕ → ℕ} {malloc : ℕ → Page}
    {memory : ℕ → Uninit}
    (hroom : ∀ id, main file counts malloc memory stdin >>= turns (lines.length + 1)
      ≠ .error (.pageIndex id)) :
    MemoryIndependent file counts stdin (lines.length + 1) ↔ AllFill D lines := by
  obtain ⟨start, -, -, hholds⟩ := main_found hfound counts malloc memory stdin
  have hD := hholds.steady.wf
  constructor
  · intro h
    exact MemoryIndependent.allFill hfound hread hexit hroom hD h
  · intro h
    exact AllFill.memoryIndependent hfound hread hexit hroom hD h

/-- The input of the lines, and of one more. -/
def inputOf (lines : List InsertLine) (last : List UInt8) : List UInt8 :=
  unlines (lines.map InsertLine.bytes ++ [last])

section

variable {lines : List InsertLine} {last : List UInt8}
  (hlines : ∀ line ∈ lines.map InsertLine.bytes ++ [last], newline ∉ line)

include hlines

lemma inputOf_read (i : ℕ) (l : InsertLine) (h : lines[i]? = some l) :
    lineAt (inputOf lines last) i = l.bytes := by
  have hlt : i < (lines.map InsertLine.bytes).length := by
    rw [List.length_map]
    exact (List.getElem?_eq_some_iff.mp h).1
  rw [← List.append_nil (inputOf lines last)]
  refine lineAt_unlines hlines [] ?_
  rw [List.getElem?_append_left hlt, List.getElem?_map, h]
  rfl

lemma inputOf_last : lineAt (inputOf lines last) lines.length = last := by
  rw [← List.append_nil (inputOf lines last), ← lines.length_map (f := InsertLine.bytes)]
  exact lineAt_unlines hlines [] List.getElem?_concat_length

end

/-- The input of a process that inserts one row and exits. -/
def savingOne (l : InsertLine) : List UInt8 := unlines [l.bytes, bytesOf ".exit"]

section

variable {l : InsertLine} (hl : newline ∉ l.bytes)

include hl

lemma savingOne_lines :
    ∀ line ∈ [l].map InsertLine.bytes ++ [bytesOf ".exit"], newline ∉ line := by
  intro line hline
  rcases List.mem_cons.mp hline with rfl | hline
  · exact hl
  · rw [List.mem_singleton.mp hline]
    decide

lemma savingOne_read (i : ℕ) (m : InsertLine) (h : [l][i]? = some m) :
    lineAt (savingOne l) i = m.bytes := inputOf_read (savingOne_lines hl) i m h

lemma savingOne_exit : lineAt (savingOne l) [l].length = bytesOf ".exit" :=
  inputOf_last (savingOne_lines hl)

lemma savingOne_room (id : ℕ) : main none (fun _ => 0) (fun _ => Page.filled 7)
    (fun _ => smallMemory) (savingOne l) >>= turns ([l].length + 1) ≠ .error (.pageIndex id) := by
  rcases saves_or_overflows Found.none (savingOne_read hl) (savingOne_exit hl) (fun _ => 0)
    (fun _ => Page.filled 7) (fun _ => smallMemory) with ⟨saved, stdout, hrun, -⟩ | ⟨hfull, -⟩
  · rw [hrun]
    exact fun h => nomatch h
  · rw [lineCells, List.mapIdx_singleton, Dictionary.addAll_cons,
      Dictionary.add_of_notMem List.not_mem_nil] at hfull
    have hone := hfull.trans_eq (numPages_put_create (l.key, l.row smallMemory))
    exact absurd hone (by decide)

end

/-- **The failure**: of a row whose strings are short, bytes from memory are saved. -/
theorem memory_reaches_file :
    ¬MemoryIndependent none (fun _ => 0) (savingOne smallInsert) 2 := by
  intro h
  have hl : newline ∉ smallInsert.bytes := by decide
  have hfill := MemoryIndependent.allFill Found.none (savingOne_read hl) (savingOne_exit hl)
    (savingOne_room hl) (Dictionary.create_wf mainParams_valid) h smallInsert
    (firstInsert_cons_self _ _) List.not_mem_nil
  exact absurd hfill.1 (by decide)

/-- A line whose strings have 31 characters. -/
def fullInsert : InsertLine where
  gap₁ := blank
  id := smallInsert.id
  gap₂ := blank
  username := ⟨bytesOf "abcdefghijklmnopqrstuvwxyz01234", by decide, by decide,
    fun b hb => Bool.eq_false_iff.mpr (List.any_eq_false.mp rfl b hb), by decide⟩
  gap₃ := blank
  email := ⟨bytesOf "abcdefghijklmnopqrst@google.com", by decide, by decide,
    fun b hb => Bool.eq_false_iff.mpr (List.any_eq_false.mp rfl b hb), by decide⟩

/-- Two runs with other bytes in memory. -/
theorem saved_cells_independent_iff_full : ∃ saved stdout saved' stdout',
    main none (fun _ => 0) (fun _ => Page.filled 7) (fun _ => .filled 0) (savingOne fullInsert)
      >>= turns 2 = .ok (.exited saved stdout) ∧
    main none (fun _ => 0) (fun _ => Page.filled 9) (fun _ => .filled 1) (savingOne fullInsert)
      >>= turns 2 = .ok (.exited saved' stdout') ∧
    SameCells saved saved' := by
  have hl : newline ∉ fullInsert.bytes := by decide
  refine (saved_cells_independent_iff Found.none (savingOne_read hl) (savingOne_exit hl)
    (savingOne_room hl)).mpr ?_ (fun _ => Page.filled 7) (fun _ => .filled 0)
    (fun _ => Page.filled 9) fun _ => .filled 1
  intro l hfirst _
  obtain rfl := List.mem_singleton.mp (List.mem_of_find?_eq_some hfirst)
  exact ⟨rfl, rfl⟩

end DbToy
