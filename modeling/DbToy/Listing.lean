import DbToy.CommandLine

/-!
# What the shell lists

`InsertLine` is a line that inserts a row in the form that the shell expects, and `ShellLine` one of
these or `select`.  On such lines the shell keeps the first row of every number and `select` prints
these rows in the order of their keys (`shell_lists_first_inserts`).
-/

namespace DbToy

open SearchTree Istream

/-! ## Lines -/

/-- White space between the words of a line. -/
structure Gap where
  bytes : List UInt8
  ne_nil : bytes ≠ []
  isSpace : ∀ b ∈ bytes, isSpace b = true
  not_newline : newline ∉ bytes

/-- An `int` in decimal, perhaps with a sign. -/
structure Numeral where
  sign : Sign
  digits : List UInt8
  ne_nil : digits ≠ []
  isDigit : ∀ b ∈ digits, isDigit b = true
  range : -2 ^ 31 ≤ intOfDigits sign.isMinus digits ∧ intOfDigits sign.isMinus digits < 2 ^ 31

/-- A string of a column: up to 31 characters, no white space and no NUL among them. -/
structure Word where
  bytes : List UInt8
  ne_nil : bytes ≠ []
  length_lt : bytes.length < 32
  not_isSpace : ∀ b ∈ bytes, isSpace b = false
  not_zero : 0 ∉ bytes

structure InsertLine where
  gap₁ : Gap
  id : Numeral
  gap₂ : Gap
  username : Word
  gap₃ : Gap
  email : Word

inductive ShellLine where
  | select
  | insert (line : InsertLine)

def Numeral.value (n : Numeral) : ℤ := intOfDigits n.sign.isMinus n.digits

namespace InsertLine

/-- The number, taken as unsigned. -/
def key (l : InsertLine) : UInt32 := (Int32.ofInt l.id.value).toUInt32

/-- What follows `insert`. -/
def payload (l : InsertLine) : List UInt8 :=
  l.gap₁.bytes ++ (l.id.sign.bytes ++ (l.id.digits ++ (l.gap₂.bytes ++ (l.username.bytes ++
    (l.gap₃.bytes ++ (l.email.bytes ++ []))))))

def bytes (l : InsertLine) : List UInt8 := bytesOf "insert" ++ l.payload

/-- The line `<id>,<username>,<email>`. -/
def printed (l : InsertLine) : List UInt8 :=
  decimal l.id.value ++ bytesOf "," ++ l.username.bytes ++ bytesOf "," ++ l.email.bytes
    ++ bytesOf "\n"

end InsertLine

def ShellLine.bytes : ShellLine → List UInt8
  | .select => bytesOf "select"
  | .insert l => l.bytes

def insertsOf : List ShellLine → List InsertLine
  | [] => []
  | .select :: lines => insertsOf lines
  | .insert l :: lines => l :: insertsOf lines

/-- What the shell says to a line, given the lines before. -/
def Says (before : List ShellLine) : ShellLine → List UInt8 → Prop
  | .insert l, said => said =
      if ∃ m ∈ insertsOf before, m.id.value = l.id.value then report .duplicateKey else []
  | .select, said =>
      if insertsOf before = [] then said = bytesOf "no entries found\n"
      else ∃ rows : List InsertLine, rows.Pairwise (fun a b => a.key < b.key) ∧
        (∀ l, l ∈ rows ↔
          (insertsOf before).find? (fun m => decide (m.id.value = l.id.value)) = some l) ∧
        said = rows.flatMap InsertLine.printed

/-! ## Reading -/

lemma Word.cString_eq (w : Word) : CharArray.cString w.bytes = w.bytes :=
  CharArray.cString_eq_self.mpr w.not_zero

namespace InsertLine

variable (l : InsertLine)

/-- The line has the right form. -/
lemma isInsertOf : IsInsertOf l.bytes l.id.value l.username.bytes l.email.bytes := by
  refine ⟨l.gap₁.bytes, l.id.sign.bytes ++ l.id.digits, l.gap₂.bytes, l.gap₃.bytes, [],
    ⟨l.gap₁.ne_nil, l.gap₁.isSpace⟩, ⟨l.id.sign, l.id.digits, rfl, l.id.ne_nil, l.id.isDigit, rfl,
      l.id.range⟩, ⟨l.gap₂.ne_nil, l.gap₂.isSpace⟩, ⟨l.username.ne_nil, l.username.not_isSpace⟩,
    ⟨l.gap₃.ne_nil, l.gap₃.isSpace⟩, ⟨l.email.ne_nil, l.email.not_isSpace⟩,
    fun b hb => absurd hb List.not_mem_nil, ?_⟩
  rw [bytes, payload, List.append_assoc l.id.sign.bytes]

lemma isInsert : IsInsert l.bytes := l.isInsertOf.isInsert

lemma fieldsOf_bytes (mem : Uninit) :
    fieldsOf mem l.bytes = (l.id.value, l.username.bytes, l.email.bytes) :=
  l.isInsertOf.fieldsOf_eq mem

lemma keyOf_bytes (mem : Uninit) : keyOf mem l.bytes = l.key := by
  rw [keyOf, fieldsOf_bytes, key]

lemma fitsColumns (mem : Uninit) : FitsColumns mem l.bytes := by
  rw [FitsColumns, fieldsOf_bytes]
  exact ⟨l.username.length_lt, l.email.length_lt⟩

/-- The key determines the number. -/
lemma key_inj {l m : InsertLine} : l.key = m.key ↔ l.id.value = m.id.value := by
  refine ⟨?_, fun h => by rw [key, key, h]⟩
  intro h
  have hint : Int32.ofInt l.id.value = Int32.ofInt m.id.value := congrArg Int32.ofUInt32 h
  have hl : (Int32.ofInt l.id.value).toInt = l.id.value :=
    Int32.toInt_ofInt_of_le l.id.range.1 l.id.range.2
  have hm : (Int32.ofInt m.id.value).toInt = m.id.value :=
    Int32.toInt_ofInt_of_le m.id.range.1 m.id.range.2
  rw [← hl, ← hm, hint]

/-- The row of the line is printed as the line says. -/
lemma toString_of_hasFields {u : UserInfo}
    (h : u.HasFields l.id.value l.username.bytes l.email.bytes) :
    (u.toString).map (· ++ bytesOf "\n") = .ok l.printed := by
  have hid : (Int32.ofInt l.id.value).toInt = l.id.value :=
    Int32.toInt_ofInt_of_le l.id.range.1 l.id.range.2
  rw [h.toString, hid, l.username.cString_eq, l.email.cString_eq]
  rfl

end InsertLine

/-! ## The dictionary -/

/-- The line that inserted the row of a key. -/
def firstInsert (inserts : List InsertLine) (key : UInt32) : Option InsertLine :=
  inserts.find? fun l => decide (l.key = key)

/-- A cell with the fields of a line. -/
def IsRowOf (c : UInt32 × Row) (l : InsertLine) : Prop :=
  c.1 = l.key ∧ ∃ u : UserInfo, c.2 = u.serialize ∧
    u.HasFields l.id.value l.username.bytes l.email.bytes

/-- The dictionary has the first row of every key. -/
structure Lists (inserts : List InsertLine) (D : Dictionary) : Prop where
  rows : ∀ c ∈ D.cells, ∃ l, firstInsert inserts c.1 = some l ∧ IsRowOf c l
  keys : ∀ l ∈ inserts, l.key ∈ D.cells.map Prod.fst

namespace Lists

variable {inserts : List InsertLine} {D : Dictionary}

lemma create (P : TreeParams) : Lists [] (.create P) :=
  ⟨fun _ hc => absurd hc List.not_mem_nil, fun _ hl => absurd hl List.not_mem_nil⟩

lemma mem_keys (h : Lists inserts D) {key : UInt32} :
    key ∈ D.cells.map Prod.fst ↔ ∃ l ∈ inserts, l.key = key := by
  constructor
  · intro hkey
    obtain ⟨c, hc, rfl⟩ := List.mem_map.mp hkey
    obtain ⟨l, hl, -⟩ := h.rows c hc
    exact ⟨l, List.mem_of_find?_eq_some hl, by simpa using List.find?_some hl⟩
  · rintro ⟨l, hl, rfl⟩
    exact h.keys l hl

/-- A line whose key is there changes nothing. -/
lemma same (h : Lists inserts D) {l : InsertLine} (hl : l.key ∈ D.cells.map Prod.fst) :
    Lists (inserts ++ [l]) D := by
  refine ⟨?_, ?_⟩
  · intro c hc
    obtain ⟨m, hm, hrow⟩ := h.rows c hc
    exact ⟨m, by rw [firstInsert, List.find?_append, ← firstInsert, hm, Option.some_or], hrow⟩
  · intro m hm
    rcases List.mem_append.mp hm with hm | hm
    · exact h.keys m hm
    · rw [List.mem_singleton.mp hm]
      exact hl

/-- A line with a new key adds its row. -/
lemma put (h : Lists inserts D) {l : InsertLine} {c : UInt32 × Row}
    (hl : l.key ∉ D.cells.map Prod.fst) (hc : IsRowOf c l) {D' : Dictionary}
    (hcells : D'.cells = putCell c D.cells) : Lists (inserts ++ [l]) D' := by
  have hnone : firstInsert inserts l.key = none :=
    List.find?_eq_none.mpr fun m hm => by
      rw [decide_eq_true_eq]
      exact fun heq => hl (heq ▸ h.keys m hm)
  refine ⟨?_, ?_⟩
  · intro d hd
    rw [hcells, mem_putCell] at hd
    rcases hd with rfl | hd
    · refine ⟨l, ?_, hc⟩
      rw [hc.1, firstInsert, List.find?_append, ← firstInsert, hnone, Option.none_or]
      exact List.find?_cons_of_pos (decide_eq_true rfl)
    · obtain ⟨m, hm, hrow⟩ := h.rows d hd
      exact ⟨m, by rw [firstInsert, List.find?_append, ← firstInsert, hm, Option.some_or], hrow⟩
  · intro m hm
    rw [hcells, List.mem_map]
    rcases List.mem_append.mp hm with hm | hm
    · obtain ⟨d, hd, hkey⟩ := List.mem_map.mp (h.keys m hm)
      exact ⟨d, mem_putCell.mpr (Or.inr hd), hkey⟩
    · rw [List.mem_singleton.mp hm]
      exact ⟨c, mem_putCell.mpr (Or.inl rfl), hc.1⟩

/-- **The rows are printed** as their lines have them. -/
theorem exists_rows : ∀ {cells : List (UInt32 × Row)},
    (∀ c ∈ cells, ∃ l, firstInsert inserts c.1 = some l ∧ IsRowOf c l) →
      ∃ rows : List InsertLine, rows.map InsertLine.key = cells.map Prod.fst ∧
        (∀ l ∈ rows, firstInsert inserts l.key = some l) ∧
        printRows cells = .ok (rows.flatMap InsertLine.printed)
  | [], _ => ⟨[], rfl, fun _ hl => absurd hl List.not_mem_nil, rfl⟩
  | c :: cells, h => by
      obtain ⟨l, hl, hkey, u, hu, hfields⟩ := h c List.mem_cons_self
      obtain ⟨rows, hkeys, hrows, hprint⟩ :=
        exists_rows fun d hd => h d (List.mem_cons_of_mem _ hd)
      have hline := l.toString_of_hasFields hfields
      refine ⟨l :: rows, ?_, ?_, ?_⟩
      · rw [List.map_cons, List.map_cons, hkeys, hkey]
      · intro m hm
        rcases List.mem_cons.mp hm with rfl | hm
        · rw [← hkey]
          exact hl
        · exact hrows m hm
      · obtain ⟨line, hu', hline⟩ : ∃ line, u.toString = .ok line ∧
            line ++ bytesOf "\n" = l.printed := by
          rw [hfields.toString] at hline ⊢
          exact ⟨_, rfl, Except.ok.inj hline⟩
        rw [printRows, hu, UserInfo.deserialize_serialize, ok_bind, hu', ok_bind, hprint, ok_bind,
          hline]
        rfl

/-- What `select` says about the dictionary. -/
lemma says_select (h : Lists inserts D) (hD : D.WF) {out : List UInt8}
    (hout : printRows D.cells = .ok out) :
    if inserts = [] then
      (if D.cells.length = 0 then bytesOf "no entries found\n" else []) ++ out
        = bytesOf "no entries found\n"
    else ∃ rows : List InsertLine, rows.Pairwise (fun a b => a.key < b.key) ∧
      (∀ l, l ∈ rows ↔ inserts.find? (fun m => decide (m.id.value = l.id.value)) = some l) ∧
      (if D.cells.length = 0 then bytesOf "no entries found\n" else []) ++ out
        = rows.flatMap InsertLine.printed := by
  split_ifs with hnil hlen hlen
  · rw [List.length_eq_zero_iff] at hlen
    rw [hlen] at hout
    cases hout
    exact List.append_nil _
  · obtain ⟨c, hc⟩ := List.exists_mem_of_length_pos (Nat.pos_of_ne_zero hlen)
    obtain ⟨l, hl, -⟩ := h.rows c hc
    rw [hnil] at hl
    exact nomatch hl
  · obtain ⟨l, hl⟩ := List.exists_mem_of_ne_nil _ hnil
    rw [List.length_eq_zero_iff] at hlen
    have hmem := h.keys l hl
    rw [hlen] at hmem
    exact absurd hmem List.not_mem_nil
  · obtain ⟨rows, hkeys, hrows, hprint⟩ := exists_rows h.rows
    refine ⟨rows, ?_, ?_, ?_⟩
    · have hsorted : (D.cells.map Prod.fst).Pairwise (· < ·) :=
        List.pairwise_map.mpr hD.sorted
      rw [← hkeys] at hsorted
      exact List.pairwise_map.mp hsorted
    · intro l
      have hvalue : inserts.find? (fun m => decide (m.id.value = l.id.value))
          = firstInsert inserts l.key := by
        rw [firstInsert]
        simp only [InsertLine.key_inj]
      rw [hvalue]
      refine ⟨hrows l, fun hl => ?_⟩
      have hmem : l.key ∈ rows.map InsertLine.key :=
        hkeys ▸ h.keys l (List.mem_of_find?_eq_some hl)
      obtain ⟨m, hm, hkey⟩ := List.mem_map.mp hmem
      have heq := (hrows m hm).symm.trans (hkey ▸ hl)
      cases heq
      exact hm
    · rw [List.nil_append]
      exact Except.ok.inj (hout.symm.trans hprint)

end Lists

/-! ## Turns -/

lemma insertsOf_append (l : ShellLine) :
    ∀ lines : List ShellLine, insertsOf (lines ++ [l]) = insertsOf lines ++ insertsOf [l]
  | [] => rfl
  | .select :: lines => insertsOf_append l lines
  | .insert m :: lines => congrArg (m :: ·) (insertsOf_append l lines)

section

variable {shell : Shell} {D : Dictionary} {before : List ShellLine} (h : shell.Holds D)
  (hlists : Lists (insertsOf before) D)

include h hlists

lemma turn_replies_select (hcmd : shell.cmd = bytesOf "select") :
    ∃ session said, shell.turn = .ok (.running (shell.after session said)) ∧
      (shell.after session said).Holds D ∧ Says before .select said := by
  have hturn := h.turn
  generalize shell.turn = r at hturn ⊢
  cases hturn with
  | exit file hexit hsaved => exact absurd (hcmd.symm.trans hexit) (by decide)
  | same session said hexit hinsert hselect hmirrors =>
      obtain ⟨out, hout, rfl⟩ := hselect hcmd
      exact ⟨session, _, rfl, h.same hmirrors _, hlists.says_select h.steady.wf hout⟩
  | put session row hinsert hrow hfields hfit hne hmirrors => exact absurd hcmd hinsert.ne_select
  | abort cond hinsert hfit => exact absurd hcmd hinsert.ne_select
  | full row hinsert hne hfull => exact absurd hcmd hinsert.ne_select

lemma turn_replies_insert {l : InsertLine} (hcmd : shell.cmd = l.bytes)
    (hroom : ∀ id, shell.turn ≠ .error (.pageIndex id)) :
    ∃ session said D', shell.turn = .ok (.running (shell.after session said)) ∧
      (shell.after session said).Holds D' ∧ Lists (insertsOf before ++ [l]) D' ∧
      Says before (.insert l) said := by
  have hiff : (∃ m ∈ insertsOf before, m.id.value = l.id.value) ↔
      l.key ∈ D.cells.map Prod.fst := by
    simp only [hlists.mem_keys, InsertLine.key_inj]
  have hturn := h.turn
  generalize shell.turn = r at hturn hroom ⊢
  cases hturn with
  | exit file hexit hsaved => exact absurd (hcmd.symm.trans hexit) l.isInsert.ne_exit
  | same session said hexit hinsert hselect hmirrors =>
      obtain ⟨-, hmem, rfl⟩ := hinsert (hcmd ▸ l.isInsert)
      rw [hcmd, l.keyOf_bytes] at hmem
      exact ⟨session, _, D, rfl, h.same hmirrors _, hlists.same hmem, (if_pos (hiff.mpr hmem)).symm⟩
  | put session row hinsert hrow hfields hfit hne hmirrors =>
      rw [hcmd, l.fieldsOf_bytes] at hfields
      have hkey : row.getPrimaryKey = l.key := hfields.getPrimaryKey
      have hnone : ¬∃ m ∈ insertsOf before, m.id.value = l.id.value :=
        fun hex => hne (hkey ▸ hiff.mp hex)
      exact ⟨session, [], _, rfl, h.put hfields hne hmirrors [],
        hlists.put (hkey ▸ hne) ⟨hkey, row, rfl, hfields⟩ (h.steady.wf.put hne).2,
        (if_neg hnone).symm⟩
  | abort cond hinsert hfit =>
      rw [hcmd] at hfit
      exact absurd (l.fitsColumns _) hfit
  | full row hinsert hne hfull => exact absurd rfl (hroom tableMaxPages)

/-- **One line.** -/
theorem turn_replies {line : ShellLine} (hcmd : shell.cmd = line.bytes)
    (hroom : ∀ id, shell.turn ≠ .error (.pageIndex id)) :
    ∃ session said D', shell.turn = .ok (.running (shell.after session said)) ∧
      (shell.after session said).Holds D' ∧ Lists (insertsOf (before ++ [line])) D' ∧
      Says before line said := by
  cases line with
  | select =>
      obtain ⟨session, said, hturn, hholds, hsays⟩ := turn_replies_select h hlists hcmd
      refine ⟨session, said, D, hturn, hholds, ?_, hsays⟩
      rw [insertsOf_append, insertsOf, insertsOf, List.append_nil]
      exact hlists
  | insert l =>
      rw [insertsOf_append]
      exact turn_replies_insert h hlists hcmd hroom

end

/-- **A run.** As long as the page table has room, the shell gets through the lines. -/
theorem turns_lists {start : Shell} {stdin : List UInt8} {memory : ℕ → Uninit}
    {lines : List ShellLine} {D : Dictionary}
    (hstart : start.HasRead 0 stdin memory) (hholds : start.Holds D) (hlists : Lists [] D)
    (hread : ∀ i line, lines[i]? = some line → lineAt stdin i = line.bytes)
    (hroom : ∀ n ≤ lines.length, ∀ id, turns n (.running start) ≠ .error (.pageIndex id)) :
    ∀ n ≤ lines.length, ∃ shell D', turns n (.running start) = .ok (.running shell) ∧
      shell.HasRead n stdin memory ∧ shell.Holds D' ∧ Lists (insertsOf (lines.take n)) D' := by
  intro n hn
  induction n with
  | zero => exact ⟨start, D, rfl, hstart, hholds, by rw [List.take_zero]; exact hlists⟩
  | succ n ih =>
      obtain ⟨shell, D', hshell, hhas, hholds', hlists'⟩ := ih (by omega)
      obtain ⟨line, hline⟩ : ∃ line, lines[n]? = some line :=
        ⟨_, List.getElem?_eq_getElem (by omega)⟩
      have hnext := turns_succ_of_running hshell
      obtain ⟨session, said, D'', hturn, hholds'', hlists'', -⟩ :=
        turn_replies hholds' hlists' (hhas.cmd.trans (hread n line hline))
          (fun id => hnext ▸ hroom (n + 1) hn id)
      refine ⟨_, D'', hnext.trans hturn, hhas.after session said, hholds'', ?_⟩
      rw [List.take_add_one, hline]
      exact hlists''

/-- **What `select` lists.** Of the lines that inserted rows with the same number the first counts,
and the others are reported. -/
theorem shell_lists_first_inserts (lines : List ShellLine) {stdin : List UInt8}
    (hread : ∀ i line, lines[i]? = some line → lineAt stdin i = line.bytes) (counts : ℕ → ℕ)
    (malloc : ℕ → Page) (memory : ℕ → Uninit)
    (hroom : ∀ n ≤ lines.length, ∀ id,
      main none counts malloc memory stdin >>= turns n ≠ .error (.pageIndex id)) :
    ∃ start, main none counts malloc memory stdin = .ok (.running start) ∧
      ∀ i line, lines[i]? = some line → ∃ shell shell' said,
        turns i (.running start) = .ok (.running shell) ∧ shell.turn = .ok (.running shell') ∧
        shell'.stdout = shell.stdout ++ prompt ++ said ∧ Says (lines.take i) line said := by
  obtain ⟨start, hmain, hhas, hholds⟩ := main_found Found.none counts malloc memory stdin
  rw [hmain] at hroom ⊢
  have hrun := turns_lists hhas hholds (Lists.create mainParams) hread hroom
  refine ⟨_, rfl, ?_⟩
  intro i line hline
  have hi := (List.getElem?_eq_some_iff.mp hline).1
  obtain ⟨shell, D, hshell, hhas, hholds, hlists⟩ := hrun i hi.le
  have hnext := turns_succ_of_running hshell
  obtain ⟨session, said, -, hturn, -, -, hsays⟩ :=
    turn_replies hholds hlists (hhas.cmd.trans (hread i line hline))
      (fun id => hnext ▸ hroom (i + 1) hi id)
  exact ⟨shell, _, said, hshell, hturn, rfl, hsays⟩

/-- A blank between two words. -/
def blank : Gap := ⟨bytesOf " ", by decide, List.all_eq_true.mp rfl, by decide⟩

def smallInsert : InsertLine where
  gap₁ := blank
  id := ⟨.none, bytesOf "1", by decide, List.all_eq_true.mp rfl, by decide⟩
  gap₂ := blank
  username := ⟨bytesOf "alice", by decide, by decide,
    fun b hb => Bool.eq_false_iff.mpr (List.any_eq_false.mp rfl b hb), by decide⟩
  gap₃ := blank
  email := ⟨bytesOf "alice@google.com", by decide, by decide,
    fun b hb => Bool.eq_false_iff.mpr (List.any_eq_false.mp rfl b hb), by decide⟩

def smallLines : List ShellLine := [.insert smallInsert, .select]

lemma smallLines_read (i : ℕ) (line : ShellLine) (h : smallLines[i]? = some line) :
    lineAt (unlines (smallLines.map ShellLine.bytes)) i = line.bytes := by
  have hmap : (smallLines.map ShellLine.bytes)[i]? = some line.bytes := by
    rw [List.getElem?_map, h]
    rfl
  have hlines : ∀ l ∈ smallLines.map ShellLine.bytes, newline ∉ l := by decide
  rw [← List.append_nil (unlines _)]
  exact lineAt_unlines hlines [] hmap

lemma smallLines_room (n : ℕ) (hn : n ≤ smallLines.length) (id : ℕ) :
    main none (fun _ => 0) (fun _ => Page.filled 7) (fun _ => smallMemory)
      (unlines (smallLines.map ShellLine.bytes)) >>= turns n ≠ .error (.pageIndex id) := by
  obtain ⟨start, hmain, hhas, hholds⟩ := main_found (Found.none) (fun _ => 0)
    (fun _ => Page.filled 7) (fun _ => smallMemory) (unlines (smallLines.map ShellLine.bytes))
  have hcmd := hhas.cmd.trans (smallLines_read 0 _ rfl)
  have hroom := hholds.turn_ne_pageIndex fun row _ => by
    rw [numPages_put_create]
    decide
  rw [hmain, ok_bind]
  obtain ⟨session, said, D, hturn, hholds', hlists, -⟩ :=
    @turn_replies _ _ [] hholds (Lists.create mainParams) _ hcmd hroom
  have hfirst : turns 1 (.running start) = .ok (.running (start.after session said)) :=
    (turns_succ_of_running (turns_zero _)).trans hturn
  have hcmd' := (hhas.after session said).cmd.trans (smallLines_read 1 _ rfl)
  obtain ⟨session', said', hturn', -⟩ := turn_replies_select hholds' hlists hcmd'
  have hsecond := (turns_succ_of_running hfirst).trans hturn'
  have hlen : smallLines.length = 2 := rfl
  obtain rfl | rfl | rfl : n = 0 ∨ n = 1 ∨ n = 2 := by omega
  · rw [turns_zero]
    exact fun h => nomatch h
  · rw [hfirst]
    exact fun h => nomatch h
  · rw [hsecond]
    exact fun h => nomatch h

theorem shell_lists_first_inserts_small : ∃ start,
    main none (fun _ => 0) (fun _ => Page.filled 7) (fun _ => smallMemory)
      (unlines (smallLines.map ShellLine.bytes)) = .ok (.running start) ∧
      ∀ i line, smallLines[i]? = some line → ∃ shell shell' said,
        turns i (.running start) = .ok (.running shell) ∧ shell.turn = .ok (.running shell') ∧
        shell'.stdout = shell.stdout ++ prompt ++ said ∧ Says (smallLines.take i) line said :=
  shell_lists_first_inserts smallLines smallLines_read (fun _ => 0) (fun _ => Page.filled 7)
    (fun _ => smallMemory) smallLines_room

end DbToy
