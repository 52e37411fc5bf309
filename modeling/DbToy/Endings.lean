import DbToy.CommandLine

/-!
# How the shell ends

The rows of a session reach the file when the shell exits.  It exits on `.exit` only: at the end of
the input its loop goes on (`rows_lost_at_eof`), and a string that is too long for its column aborts
it.  `nothing_lost_iff` says for which inputs no row is lost.
-/

namespace DbToy

open SearchTree Istream

/-- The turn takes the row into the tree. -/
def Shell.Accepts (shell : Shell) (row : UserInfo) : Prop :=
  parse (shell.memory 0) shell.cmd = .ok (some (.insert row), []) ∧
    ∃ S, Command.evaluate shell.session (.insert row) = .ok (.result .executeSuccess S [])

/-- A session that loses nothing. -/
structure NothingLost (start : Shell) : Prop where
  /-- The loop terminates. -/
  ends : ∃ n file stdout, turns n (.running start) = .ok (.exited file stdout)
  no_abort : ∀ n e, turns n (.running start) ≠ .error e
  /-- Only a command changes the tree. -/
  ignores : ∀ n shell shell', turns n (.running start) = .ok (.running shell) →
    shell.turn = .ok (.running shell') → ¬IsCommand shell.cmd →
      ∀ D, shell.session.Mirrors D → shell'.session.Mirrors D
  /-- The file opens with all rows. -/
  reopens : ∀ n file stdout, turns n (.running start) = .ok (.exited file stdout) →
    ∀ counts malloc, ∃ S D, initalize (some file) counts malloc = .ok S ∧ S.Mirrors D ∧
      ∀ m shell row, turns m (.running start) = .ok (.running shell) → shell.Accepts row →
        (row.getPrimaryKey, row.serialize) ∈ D.cells

/-- The input has a line `.exit`, and the insertions in front of it have strings that fit and are
commands, unless their key is there already. -/
def EndsWell (D : Dictionary) (stdin : List UInt8) (memory : ℕ → Uninit) : Prop :=
  ∃ e, lineAt stdin e = bytesOf ".exit" ∧ ∀ j < e, IsInsert (lineAt stdin j) →
    FitsColumns (memory j) (lineAt stdin j) ∧
      (IsCommand (lineAt stdin j) ∨
        keyOf (memory j) (lineAt stdin j) ∈ D.cells.map Prod.fst ∨
        ∃ i < j, IsInsert (lineAt stdin i) ∧
          keyOf (memory i) (lineAt stdin i) = keyOf (memory j) (lineAt stdin j))

/-! ## Runs -/

section

variable {n : ℕ} {p : Process} {shell' : Shell} {file stdout : List UInt8}

lemma turns_one_exited : turns 1 (.exited file stdout) = .ok (.exited file stdout) := rfl

lemma exists_of_turns_running (h : turns (n + 1) p = .ok (.running shell')) :
    ∃ shell, turns n p = .ok (.running shell) ∧ shell.turn = .ok (.running shell') := by
  have hsucc := turns_succ n p
  cases hturns : turns n p with
  | error e =>
      rw [hturns, error_bind, h] at hsucc
      exact nomatch hsucc
  | ok q =>
      cases q with
      | running shell => exact ⟨shell, rfl, (turns_succ_of_running hturns).symm.trans h⟩
      | exited file stdout =>
          rw [hturns, ok_bind, turns_one_exited, h] at hsucc
          exact nomatch hsucc

lemma running_of_le {shell : Shell} (h : turns n p = .ok (.running shell)) :
    ∀ {m : ℕ}, m ≤ n → ∃ shell, turns m p = .ok (.running shell) := by
  intro m hm
  induction n generalizing shell with
  | zero =>
      obtain rfl : m = 0 := by omega
      exact ⟨shell, h⟩
  | succ n ih =>
      rcases Nat.lt_or_ge n m with hlt | hge
      · obtain rfl : m = n + 1 := by omega
        exact ⟨shell, h⟩
      · obtain ⟨shell₁, h₁, -⟩ := exists_of_turns_running h
        exact ih h₁ hge

/-- A process that has exited stays so. -/
lemma exited_of_le (h : turns n p = .ok (.exited file stdout)) :
    ∀ {m : ℕ}, n ≤ m → turns m p = .ok (.exited file stdout) := by
  intro m hm
  induction hm with
  | refl => exact h
  | @step m hm ih => rw [turns_succ, ih, ok_bind, turns_one_exited]

/-- The turn that exits. -/
lemma exists_of_turns_exited {start : Shell}
    (h : turns n (.running start) = .ok (.exited file stdout)) :
    ∃ m shell, turns m (.running start) = .ok (.running shell) ∧
      shell.turn = .ok (.exited file stdout) ∧
      turns (m + 1) (.running start) = .ok (.exited file stdout) := by
  induction n with
  | zero => exact nomatch h
  | succ n ih =>
      have hsucc := turns_succ n (.running start)
      cases hturns : turns n (.running start) with
      | error e =>
          rw [hturns, error_bind, h] at hsucc
          exact nomatch hsucc
      | ok q =>
          cases q with
          | running shell =>
              exact ⟨n, shell, hturns, (turns_succ_of_running hturns).symm.trans h, h⟩
          | exited file' stdout' =>
              rw [hturns, ok_bind, turns_one_exited, h] at hsucc
              cases hsucc
              exact ih hturns

end

/-- What is known of a shell that has got through `n` lines, having started on `D₀`. -/
structure Progress (start : Shell) (D₀ : Dictionary) (stdin : List UInt8) (memory : ℕ → Uninit)
    (n : ℕ) (shell : Shell) (D : Dictionary) : Prop where
  read : shell.HasRead n stdin memory
  holds : shell.Holds D
  keys : ∀ key, key ∈ D.cells.map Prod.fst ↔ key ∈ D₀.cells.map Prod.fst ∨
    ∃ i < n, IsInsert (lineAt stdin i) ∧ keyOf (memory i) (lineAt stdin i) = key
  accepted : ∀ m < n, ∀ shell row, turns m (.running start) = .ok (.running shell) →
    shell.Accepts row → (row.getPrimaryKey, row.serialize) ∈ D.cells
  passed : ∀ i < n, lineAt stdin i ≠ bytesOf ".exit" ∧
    (IsInsert (lineAt stdin i) → FitsColumns (memory i) (lineAt stdin i))

lemma Shell.Accepts.fromString {shell : Shell} {row : UserInfo} (h : shell.Accepts row) :
    IsInsert shell.cmd ∧ (UserInfo.new (shell.memory 0)).fromString (shell.memory 0)
      (shell.cmd.drop 6) = .ok row := by
  obtain ⟨hparse, -⟩ := h
  by_cases hcmd : IsInsert shell.cmd
  · rw [parse_insert hcmd] at hparse
    obtain ⟨row', hrow, hparse⟩ := bind_eq_ok hparse
    cases hparse
    exact ⟨hcmd, hrow⟩
  · rw [parse] at hparse
    split_ifs at hparse with hexit hselect hinsert
    · cases hparse
    · cases hparse
    · exact absurd hinsert hcmd
    · cases hparse

lemma Shell.Accepts.turn {shell : Shell} {row : UserInfo} (h : shell.Accepts row) :
    ∃ S, shell.turn = .ok (.running (shell.after S [])) := by
  obtain ⟨hparse, S, heval⟩ := h
  refine ⟨S, ?_⟩
  rw [Shell.turn_of_parse hparse heval, Except.map, Shell.finish_result]
  rfl

lemma report_duplicateKey_ne_nil : report .duplicateKey ≠ [] := by decide

namespace Progress

variable {start : Shell} {D₀ : Dictionary} {stdin : List UInt8} {memory : ℕ → Uninit} {n : ℕ}
  {shell shell' : Shell} {D : Dictionary}

lemma zero (h : start.HasRead 0 stdin memory) (hD : start.Holds D₀) :
    Progress start D₀ stdin memory 0 start D₀ := by
  refine ⟨h, hD, fun key => ⟨Or.inl, ?_⟩, fun m hm => absurd hm (Nat.not_lt_zero m),
    fun i hi => absurd hi (Nat.not_lt_zero i)⟩
  rintro (hkey | ⟨i, hi, -⟩)
  · exact hkey
  · exact absurd hi (Nat.not_lt_zero i)

lemma isInsert_iff (h : Progress start D₀ stdin memory n shell D) :
    IsInsert shell.cmd ↔ IsInsert (lineAt stdin n) := by
  rw [h.read.cmd]

lemma fitsColumns_iff (h : Progress start D₀ stdin memory n shell D) :
    FitsColumns (shell.memory 0) shell.cmd ↔ FitsColumns (memory n) (lineAt stdin n) := by
  rw [h.read.cmd, h.read.memory_zero]

lemma keyOf_eq (h : Progress start D₀ stdin memory n shell D) :
    keyOf (shell.memory 0) shell.cmd = keyOf (memory n) (lineAt stdin n) := by
  rw [h.read.cmd, h.read.memory_zero]

/-- What the line adds to the keys. -/
lemma keys_succ (h : Progress start D₀ stdin memory n shell D) {D' : Dictionary}
    (hD' : ∀ key, key ∈ D'.cells.map Prod.fst ↔ key ∈ D.cells.map Prod.fst ∨
      IsInsert shell.cmd ∧ keyOf (shell.memory 0) shell.cmd = key) (key : UInt32) :
    key ∈ D'.cells.map Prod.fst ↔ key ∈ D₀.cells.map Prod.fst ∨
      ∃ i < n + 1, IsInsert (lineAt stdin i) ∧ keyOf (memory i) (lineAt stdin i) = key := by
  rw [hD', h.keys, h.isInsert_iff, h.keyOf_eq]
  constructor
  · rintro ((hkey | ⟨i, hi, hline⟩) | hline)
    · exact Or.inl hkey
    · exact Or.inr ⟨i, by omega, hline⟩
    · exact Or.inr ⟨n, by omega, hline⟩
  · rintro (hkey | ⟨i, hi, hline⟩)
    · exact Or.inl (Or.inl hkey)
    · rcases Nat.lt_or_ge i n with hlt | hge
      · exact Or.inl (Or.inr ⟨i, hlt, hline⟩)
      · obtain rfl : i = n := by omega
        exact Or.inr hline

lemma passed_succ (h : Progress start D₀ stdin memory n shell D)
    (hexit : shell.cmd ≠ bytesOf ".exit")
    (hfit : IsInsert shell.cmd → FitsColumns (shell.memory 0) shell.cmd) (i : ℕ) (hi : i < n + 1) :
    lineAt stdin i ≠ bytesOf ".exit" ∧
      (IsInsert (lineAt stdin i) → FitsColumns (memory i) (lineAt stdin i)) := by
  rcases Nat.lt_or_ge i n with hlt | hge
  · exact h.passed i hlt
  · obtain rfl : i = n := by omega
    rw [← h.read.cmd, ← h.read.memory_zero]
    exact ⟨hexit, hfit⟩

lemma accepted_succ (h : Progress start D₀ stdin memory n shell D)
    (hshell : turns n (.running start) = .ok (.running shell)) {D' : Dictionary}
    (hkept : ∀ c ∈ D.cells, c ∈ D'.cells)
    (hnew : ∀ row, shell.Accepts row → (row.getPrimaryKey, row.serialize) ∈ D'.cells)
    (m : ℕ) (hm : m < n + 1) (shell₁ : Shell) (row : UserInfo)
    (hshell₁ : turns m (.running start) = .ok (.running shell₁)) (hrow : shell₁.Accepts row) :
    (row.getPrimaryKey, row.serialize) ∈ D'.cells := by
  rcases Nat.lt_or_ge m n with hlt | hge
  · exact hkept _ (h.accepted m hlt shell₁ row hshell₁ hrow)
  · obtain rfl : m = n := by omega
    cases hshell.symm.trans hshell₁
    exact hnew row hrow

/-- **One line further.** -/
theorem succ (h : Progress start D₀ stdin memory n shell D)
    (hshell : turns n (.running start) = .ok (.running shell))
    (hturn : shell.turn = .ok (.running shell')) :
    ∃ D', Progress start D₀ stdin memory (n + 1) shell' D' := by
  have hspec := h.holds.turn
  rw [hturn] at hspec
  cases hspec with
  | same session said hexit hinsert hselect hmirrors =>
      refine ⟨D, h.read.after _ _, h.holds.same hmirrors said, h.keys_succ ?_, h.accepted_succ
        hshell (fun c hc => hc) ?_, h.passed_succ hexit fun hins => (hinsert hins).1⟩
      · intro key
        refine ⟨Or.inl, ?_⟩
        rintro (hkey | ⟨hins, rfl⟩)
        · exact hkey
        · exact (hinsert hins).2.1
      · intro row hrow
        -- a row that is not taken is reported
        obtain ⟨S, hS⟩ := hrow.turn
        have hout := congrArg Shell.stdout (Process.running.inj (Except.ok.inj (hturn.symm.trans hS)))
        obtain rfl := (hinsert hrow.fromString.1).2.2
        exact absurd (List.append_cancel_left hout) report_duplicateKey_ne_nil
  | put session row hinsert hrow hfields hfit hne hmirrors =>
      have hcells := (h.holds.steady.wf.put (c := (row.getPrimaryKey, row.serialize)) hne).2
      have hkey : row.getPrimaryKey = keyOf (shell.memory 0) shell.cmd := hfields.getPrimaryKey
      refine ⟨_, h.read.after _ _, h.holds.put hfields hne hmirrors [], h.keys_succ ?_,
        h.accepted_succ hshell ?_ ?_, h.passed_succ hinsert.ne_exit fun _ => hfit⟩
      · intro key
        rw [hcells, List.mem_map, List.mem_map]
        constructor
        · rintro ⟨c, hc, rfl⟩
          rcases mem_putCell.mp hc with rfl | hc
          · exact Or.inr ⟨hinsert, hkey.symm⟩
          · exact Or.inl ⟨c, hc, rfl⟩
        · rintro (⟨c, hc, rfl⟩ | ⟨-, rfl⟩)
          · exact ⟨c, mem_putCell.mpr (Or.inr hc), rfl⟩
          · exact ⟨_, mem_putCell.mpr (Or.inl rfl), hkey⟩
      · intro c hc
        rw [hcells]
        exact mem_putCell.mpr (Or.inr hc)
      · intro row' hrow'
        cases hrow.symm.trans hrow'.fromString.2
        rw [hcells]
        exact mem_putCell.mpr (Or.inl rfl)

/-- **A run** of `n` turns. -/
theorem of_turns (h : start.HasRead 0 stdin memory) (hD : start.Holds D₀) :
    ∀ {n : ℕ} {shell : Shell}, turns n (.running start) = .ok (.running shell) →
      ∃ D, Progress start D₀ stdin memory n shell D := by
  intro n
  induction n with
  | zero =>
      intro shell hshell
      cases hshell
      exact ⟨D₀, Progress.zero h hD⟩
  | succ n ih =>
      intro shell hshell
      obtain ⟨shell₁, hshell₁, hturn⟩ := exists_of_turns_running hshell
      obtain ⟨D, hprogress⟩ := ih hshell₁
      exact hprogress.succ hshell₁ hturn

/-- Only `.exit` ends the loop. -/
lemma exits (h : Progress start D₀ stdin memory n shell D) {file stdout : List UInt8}
    (hturn : shell.turn = .ok (.exited file stdout)) :
    lineAt stdin n = bytesOf ".exit" ∧ Found (some file) D := by
  have hspec := h.holds.turn
  rw [hturn] at hspec
  cases hspec with
  | exit file hexit hsaved =>
      rw [← h.read.cmd]
      exact ⟨hexit, hsaved, h.holds.steady, h.holds.printable⟩

/-- Only an insertion that does not fit and the page table stop the loop. -/
lemma goes_on (h : Progress start D₀ stdin memory n shell D)
    (hexit : lineAt stdin n ≠ bytesOf ".exit")
    (hfit : IsInsert (lineAt stdin n) → FitsColumns (memory n) (lineAt stdin n))
    (hroom : ∀ id, shell.turn ≠ .error (.pageIndex id)) :
    ∃ shell', shell.turn = .ok (.running shell') := by
  rw [← h.fitsColumns_iff, ← h.isInsert_iff] at hfit
  rw [← h.read.cmd] at hexit
  have hspec := h.holds.turn
  generalize shell.turn = r at hspec hroom ⊢
  cases hspec with
  | exit file hexit' hsaved => exact absurd hexit' hexit
  | same session said _ hinsert hselect hmirrors => exact ⟨_, rfl⟩
  | put session row hinsert hrow hfields _ hne hmirrors => exact ⟨_, rfl⟩
  | abort cond hinsert hunfit => exact absurd (hfit hinsert) hunfit
  | full row hinsert hne hfull => exact absurd rfl (hroom tableMaxPages)

/-- A turn that leaves the tree as it is was not given a new key. -/
lemma keyOf_mem_of_same (h : Progress start D₀ stdin memory n shell D)
    (hturn : shell.turn = .ok (.running shell')) (hsame : shell'.session.Mirrors D)
    (hinsert : IsInsert (lineAt stdin n)) :
    keyOf (memory n) (lineAt stdin n) ∈ D.cells.map Prod.fst := by
  rw [← h.keyOf_eq]
  rw [← h.isInsert_iff] at hinsert
  have hspec := h.holds.turn
  rw [hturn] at hspec
  cases hspec with
  | same session said hexit hinsert' hselect hmirrors => exact (hinsert' hinsert).2.1
  | put session row hinsert' hrow hfields hfit hne hmirrors =>
      exact absurd (hmirrors.unique hsame) (h.holds.steady.wf.put_ne hne)

/-- A turn that is not given a new key leaves the tree as it is. -/
lemma same_of_keyOf_mem (h : Progress start D₀ stdin memory n shell D)
    (hturn : shell.turn = .ok (.running shell'))
    (hmem : IsInsert (lineAt stdin n) → keyOf (memory n) (lineAt stdin n) ∈ D.cells.map Prod.fst) :
    shell'.session.Mirrors D := by
  rw [← h.keyOf_eq, ← h.isInsert_iff] at hmem
  have hspec := h.holds.turn
  rw [hturn] at hspec
  cases hspec with
  | same session said hexit hinsert' hselect hmirrors => exact hmirrors
  | put session row hinsert hrow hfields hfit hne hmirrors =>
      have hkey : row.getPrimaryKey = keyOf (shell.memory 0) shell.cmd := hfields.getPrimaryKey
      exact absurd (hkey ▸ hmem hinsert) hne

end Progress

/-! ## Nothing is lost -/

section

variable {start : Shell} {D₀ : Dictionary} {stdin : List UInt8} {memory : ℕ → Uninit}
  (h : start.HasRead 0 stdin memory) (hD : start.Holds D₀)

include h hD

/-- The shell gets through lines that neither end nor abort it. -/
lemma running_of_lines {e : ℕ} (hexit : ∀ n < e, lineAt stdin n ≠ bytesOf ".exit")
    (hfit : ∀ n < e, IsInsert (lineAt stdin n) → FitsColumns (memory n) (lineAt stdin n))
    (hroom : ∀ n shell, turns n (.running start) = .ok (.running shell) →
      ∀ id, shell.turn ≠ .error (.pageIndex id)) :
    ∀ n ≤ e, ∃ shell, turns n (.running start) = .ok (.running shell) := by
  intro n hn
  induction n with
  | zero => exact ⟨start, rfl⟩
  | succ n ih =>
      obtain ⟨shell, hshell⟩ := ih (by omega)
      obtain ⟨D, hprogress⟩ := Progress.of_turns h hD hshell
      obtain ⟨shell', hturn⟩ := hprogress.goes_on (hexit n (by omega)) (hfit n (by omega))
        (hroom n shell hshell)
      exact ⟨shell', (turns_succ_of_running hshell).trans hturn⟩

/-- **A file that the shell leaves** opens with all rows that were accepted. -/
theorem exited_reopens {n : ℕ} {file stdout : List UInt8}
    (hexited : turns n (.running start) = .ok (.exited file stdout)) (counts : ℕ → ℕ)
    (malloc : ℕ → Page) :
    ∃ S D, initalize (some file) counts malloc = .ok S ∧ S.Mirrors D ∧
      ∀ m shell row, turns m (.running start) = .ok (.running shell) → shell.Accepts row →
        (row.getPrimaryKey, row.serialize) ∈ D.cells := by
  obtain ⟨k, shell, hshell, hturn, hlast⟩ := exists_of_turns_exited hexited
  obtain ⟨D, hprogress⟩ := Progress.of_turns h hD hshell
  obtain ⟨hline, hfound⟩ := hprogress.exits hturn
  obtain ⟨S, hS, hmirrors, -⟩ := initalize_found hfound counts malloc
  refine ⟨S, D, hS, hmirrors, ?_⟩
  intro m shell₁ row hshell₁ hrow
  rcases Nat.lt_trichotomy m k with hlt | rfl | hgt
  · exact hprogress.accepted m hlt shell₁ row hshell₁ hrow
  · cases hshell.symm.trans hshell₁
    rw [← hprogress.read.cmd] at hline
    exact absurd hline hrow.fromString.1.ne_exit
  · rw [exited_of_le hlast hgt] at hshell₁
    exact nomatch hshell₁

/-- An input on which nothing is lost ends well. -/
lemma NothingLost.endsWell (hlost : NothingLost start) : EndsWell D₀ stdin memory := by
  obtain ⟨n, file, stdout, hexited⟩ := hlost.ends
  obtain ⟨e, shell, hshell, hturn, -⟩ := exists_of_turns_exited hexited
  obtain ⟨D, hprogress⟩ := Progress.of_turns h hD hshell
  refine ⟨e, (hprogress.exits hturn).1, fun j hj hinsert => ⟨(hprogress.passed j hj).2 hinsert, ?_⟩⟩
  by_cases hcommand : IsCommand (lineAt stdin j)
  · exact Or.inl hcommand
  · obtain ⟨shell₂, hshell₂⟩ := running_of_le hshell hj
    obtain ⟨shell₁, hshell₁, hturn₁⟩ := exists_of_turns_running hshell₂
    obtain ⟨D₁, hprogress₁⟩ := Progress.of_turns h hD hshell₁
    have hsame := hlost.ignores j shell₁ shell₂ hshell₁ hturn₁ (hprogress₁.read.cmd ▸ hcommand) D₁
      hprogress₁.holds.mirrors
    have hmem := hprogress₁.keyOf_mem_of_same hturn₁ hsame hinsert
    rw [hprogress₁.keys] at hmem
    exact Or.inr hmem

/-- On an input that ends well nothing is lost. -/
lemma EndsWell.nothingLost (hends : EndsWell D₀ stdin memory)
    (hroom : ∀ n id, turns n (.running start) ≠ .error (.pageIndex id)) : NothingLost start := by
  classical
  have hex : ∃ e, lineAt stdin e = bytesOf ".exit" := by
    obtain ⟨e, he, -⟩ := hends
    exact ⟨e, he⟩
  -- the first `.exit` counts
  obtain ⟨e, he, hmin⟩ : ∃ e, lineAt stdin e = bytesOf ".exit" ∧
      ∀ j < e, lineAt stdin j ≠ bytesOf ".exit" :=
    ⟨Nat.find hex, Nat.find_spec hex, fun j hj => Nat.find_min hex hj⟩
  obtain ⟨e', he', hlines⟩ := hends
  have hle : e ≤ e' := by
    by_contra hlt
    exact hmin e' (by omega) he'
  have hrunning := running_of_lines h hD hmin (fun n hn hins => (hlines n (by omega) hins).1)
    fun n shell hshell id => turns_succ_of_running hshell ▸ hroom (n + 1) id
  obtain ⟨last, hlast⟩ := hrunning e le_rfl
  obtain ⟨D, hprogress⟩ := Progress.of_turns h hD hlast
  obtain ⟨file, stdout, hturn, -⟩ := hprogress.holds.turn_saved (hprogress.read.cmd.trans he)
  have hexited := (turns_succ_of_running hlast).trans hturn
  refine ⟨⟨e + 1, file, stdout, hexited⟩, ?_, ?_, fun n file' stdout' hexited' counts malloc =>
    exited_reopens h hD hexited' counts malloc⟩
  · intro n err herr
    rcases Nat.lt_or_ge e n with hlt | hge
    · rw [exited_of_le hexited hlt] at herr
      exact nomatch herr
    · obtain ⟨shell, hshell⟩ := hrunning n hge
      exact nomatch hshell.symm.trans herr
  · intro n shell shell' hshell hturn' hcommand D₁ hD₁
    obtain ⟨D₂, hprogress₂⟩ := Progress.of_turns h hD hshell
    cases hD₁.unique hprogress₂.holds.mirrors
    refine hprogress₂.same_of_keyOf_mem hturn' fun hinsert => ?_
    rw [hprogress₂.read.cmd] at hcommand
    have hlt : n < e := by
      by_contra hge
      have hne : n ≠ e := by
        rintro rfl
        exact hcommand (Or.inl he)
      rw [exited_of_le hexited (by omega : e + 1 ≤ n)] at hshell
      exact nomatch hshell
    rw [hprogress₂.keys]
    exact (hlines n (by omega) hinsert).2.resolve_left hcommand

end

/-- **Nothing is lost** exactly on the inputs that end well. -/
theorem nothing_lost_iff {file : Option (List UInt8)} {D : Dictionary} (h : Found file D)
    (counts : ℕ → ℕ) (malloc : ℕ → Page) (memory : ℕ → Uninit) (stdin : List UInt8)
    (hroom : ∀ n id, main file counts malloc memory stdin >>= turns n ≠ .error (.pageIndex id)) :
    ∃ start, main file counts malloc memory stdin = .ok (.running start) ∧
      (NothingLost start ↔ EndsWell D stdin memory) := by
  obtain ⟨start, hmain, hhas, hholds⟩ := main_found h counts malloc memory stdin
  rw [hmain] at hroom ⊢
  exact ⟨start, rfl, fun hlost => hlost.endsWell hhas hholds,
    fun hends => hends.nothingLost hhas hholds hroom⟩

/-- One row, and the shell exits. -/
def oneAndExit : List UInt8 := bytesOf "insert 1 alice alice@google.com\n.exit\n"

lemma oneAndExit_endsWell :
    EndsWell (.create mainParams) oneAndExit fun _ => smallMemory := by
  refine ⟨1, by decide, fun j hj _ => ?_⟩
  obtain rfl : j = 0 := by omega
  have hform : IsInsertOf (lineAt oneAndExit 0) 1 (bytesOf "alice") (bytesOf "alice@google.com") :=
    (isInsertOf_iff_words (by decide)).mpr ⟨bytesOf "1", by decide, .none, bytesOf "1", rfl,
      by decide, by decide +kernel, by decide, by decide, by decide⟩
  exact ⟨by decide, Or.inl (Or.inr (Or.inr ⟨1, _, _, hform, by decide⟩))⟩

/-- The first turn takes the row, and the second one exits. -/
lemma oneAndExit_turns : ∃ start row shell file stdout,
    main none (fun _ => 0) (fun _ => Page.filled 7) (fun _ => smallMemory) oneAndExit
      = .ok (.running start) ∧
    start.Accepts row ∧ row.getPrimaryKey = 1 ∧ turns 1 (.running start) = .ok (.running shell) ∧
    turns 2 (.running start) = .ok (.exited file stdout) := by
  obtain ⟨start, hmain, hhas, hholds⟩ := main_found Found.none (fun _ => 0)
    (fun _ => Page.filled 7) (fun _ => smallMemory) oneAndExit
  have hcmd : start.cmd = bytesOf "insert 1 alice alice@google.com" := hhas.cmd.trans (by decide)
  obtain ⟨row, hparse, hfields⟩ := @parse_of_fits (start.memory 0) start.cmd
    (by rw [hcmd]; decide) (by rw [hcmd, hhas.memory_zero]; decide)
  have hread : fieldsOf (start.memory 0) start.cmd
      = (1, bytesOf "alice", bytesOf "alice@google.com") := by
    rw [hcmd, hhas.memory_zero]
    decide
  rw [hread] at hfields
  rcases evaluate_insert hholds.mirrors hholds.steady row with
    ⟨hmem, -⟩ | ⟨-, ⟨S, hmirrors, -, heval⟩ | ⟨hfull, -⟩⟩
  · exact absurd hmem List.not_mem_nil
  · have hturn := Shell.turn_of_parse hparse heval
    rw [Except.map, Shell.finish_result] at hturn
    have hone := (turns_succ_of_running (turns_zero (.running start))).trans hturn
    have hholds' := hholds.put hfields List.not_mem_nil hmirrors ([] ++ report .executeSuccess)
    obtain ⟨file, stdout, hturn', -⟩ :=
      hholds'.turn_saved ((hhas.after S _).cmd.trans (by decide))
    exact ⟨start, row, _, file, stdout, hmain, ⟨hparse, S, heval⟩, hfields.getPrimaryKey, hone,
      (turns_succ_of_running hone).trans hturn'⟩
  · rw [numPages_put_create] at hfull
    exact absurd hfull (by decide)

/-- The row is accepted, and nothing is lost. -/
theorem nothing_lost_exit : ∃ start row,
    main none (fun _ => 0) (fun _ => Page.filled 7) (fun _ => smallMemory) oneAndExit
      = .ok (.running start) ∧
    start.Accepts row ∧ row.getPrimaryKey = 1 ∧ NothingLost start := by
  obtain ⟨start, row, shell, file, stdout, hmain, haccepts, hkey, hone, htwo⟩ := oneAndExit_turns
  have hroom : ∀ n id, main none (fun _ => 0) (fun _ => Page.filled 7) (fun _ => smallMemory)
      oneAndExit >>= turns n ≠ .error (.pageIndex id) := by
    intro n id
    rw [hmain, ok_bind]
    rcases Nat.lt_or_ge n 2 with hlt | hge
    · obtain rfl | rfl : n = 0 ∨ n = 1 := by omega
      · exact fun herr => nomatch herr
      · rw [hone]
        exact fun herr => nomatch herr
    · rw [exited_of_le htwo hge]
      exact fun herr => nomatch herr
  obtain ⟨start', hmain', hiff⟩ := nothing_lost_iff Found.none (fun _ => 0)
    (fun _ => Page.filled 7) (fun _ => smallMemory) oneAndExit hroom
  cases hmain.symm.trans hmain'
  exact ⟨start, row, hmain, haccepts, hkey, hiff.mpr oneAndExit_endsWell⟩

/-- One row and then the end of the input. -/
def unended : List UInt8 := bytesOf "insert 1 alice alice@google.com\n"

lemma lineAt_unended_succ (n : ℕ) : lineAt unended (n + 1) = [] := by
  have hrest : (getline unended).2 = [] := by decide
  rw [lineAt_succ, hrest, lineAt_nil]

/-- **At the end of the input the loop goes on**, for ever, and the row does not reach the file. -/
theorem rows_lost_at_eof : ∃ start,
    main none (fun _ => 0) (fun _ => Page.filled 7) (fun _ => smallMemory) unended
      = .ok (.running start) ∧
    (∀ n, ∃ shell, turns n (.running start) = .ok (.running shell)) ∧ ¬NothingLost start := by
  obtain ⟨start, hmain, hhas, hholds⟩ := main_found Found.none (fun _ => 0)
    (fun _ => Page.filled 7) (fun _ => smallMemory) unended
  have hexit : ∀ n, lineAt unended n ≠ bytesOf ".exit" := by
    intro n
    cases n with
    | zero => decide
    | succ n =>
        rw [lineAt_unended_succ]
        decide
  have hfit : ∀ n, IsInsert (lineAt unended n) → FitsColumns smallMemory (lineAt unended n) := by
    intro n hins
    cases n with
    | zero => decide
    | succ n =>
        rw [lineAt_unended_succ] at hins
        exact absurd hins (by decide)
  have hroom : ∀ n shell, turns n (.running start) = .ok (.running shell) →
      ∀ id, shell.turn ≠ .error (.pageIndex id) := by
    intro n shell hshell
    cases n with
    | zero =>
        cases hshell
        refine hholds.turn_ne_pageIndex ?_
        intro row _
        rw [numPages_put_create]
        decide
    | succ n =>
        obtain ⟨D, hprogress⟩ := Progress.of_turns hhas hholds hshell
        refine hprogress.holds.turn_ne_pageIndex_of_not_insert ?_
        rw [hprogress.read.cmd, lineAt_unended_succ]
        decide
  have hrunning : ∀ n, ∃ shell, turns n (.running start) = .ok (.running shell) := fun n =>
    running_of_lines hhas hholds (fun m _ => hexit m) (fun m _ => hfit m) hroom n le_rfl
  refine ⟨start, hmain, hrunning, ?_⟩
  intro hlost
  obtain ⟨n, file, stdout, hexited⟩ := hlost.ends
  obtain ⟨shell, hshell⟩ := hrunning n
  exact nomatch hshell.symm.trans hexited

end DbToy
