import DbToy.Endings
import DbToy.Interrupted
import DbToy.Uninitialised

/-!
# Shells that do not exit

The database is closed on `.exit` only.  A string that is too long for its column ends the process
with a failed assertion, and a process can be killed at any time.  What its file is then worth
depends on where the root of the tree was when a page was added last (`killed_shell`).

* `Session.Named`: the page that the front of the file names, told from the dictionary alone.
* `LeftByShells`: the files that shells leave when each of them exits.
-/

namespace DbToy

open Bytes SearchTree Istream

/-! ## The root -/

namespace Dictionary

variable {D : Dictionary}

/-- The root is the one of before, or it is the first new one and the last page: none has been added
since. -/
def NamesRoot (root height : ℕ) (D : Dictionary) : Prop :=
  D.rootPid = root ∨ D.tree.height = height + 1 ∧ D.rootPid + 1 = D.numPages

instance (root height : ℕ) (D : Dictionary) : Decidable (D.NamesRoot root height) :=
  inferInstanceAs (Decidable (_ ∨ _))

/-- An insertion leaves the root where it is, or makes the last page a new one. -/
lemma WF.put_root (hD : D.WF) {c : UInt32 × Row} (hc : c.1 ∉ D.cells.map Prod.fst) :
    D.numPages ≤ (D.put c).numPages ∧
      ((D.put c).tree.height = D.tree.height ∧ (D.put c).rootPid = D.rootPid ∨
        (D.put c).tree.height = D.tree.height + 1 ∧ (D.put c).rootPid + 1 = (D.put c).numPages ∧
          D.numPages ≤ (D.put c).rootPid) := by
  obtain ⟨hL, hL'⟩ := hD.valid.leafCapacity_even
  obtain ⟨hI, hI'⟩ := hD.valid.innerCapacity_even
  have hne : ∀ d ∈ D.tree.cells, d.1 ≠ c.1 := fun d hd heq =>
    hc (List.mem_map.mpr ⟨d, hd, heq⟩)
  have hpid := @Rooted.pid_insert _ _ _ D.params.leafCapacity D.params.innerCapacity c D.tree
    D.numPages (by omega) (by omega) hD.sound hne
  have hheight := @Rooted.height_insert _ _ _ D.params.leafCapacity D.params.innerCapacity c
    D.numPages D.tree
  have hnum := @Rooted.insert_snd _ _ _ D.params.leafCapacity D.params.innerCapacity c D.numPages
    D.tree
  rw [Dictionary.put, rootPid, rootPid]
  dsimp only
  rw [hpid, hheight, hnum]
  split_ifs with hfull
  · exact ⟨by omega, Or.inr ⟨rfl, rfl, by omega⟩⟩
  · exact ⟨by omega, Or.inl ⟨rfl, rfl⟩⟩

end Dictionary

namespace BPlusTree

lemma Wrote.grows {t t' : BPlusTree} (h : t.Wrote t') : t.Grows t' := by
  refine ⟨h.numPages_le, fun hnum => ?_, h.drop_eq⟩
  rcases h.front with ⟨-, hbytes⟩ | ⟨hlt, -⟩
  · exact hbytes
  · exact absurd hlt (by omega)

end BPlusTree

namespace Session

variable {S S' : Session} {D D' : Dictionary} {file : List UInt8} {root n height : ℕ}

/-- The session has opened the file, whose tree had this root and this height, and its front names
this root as long as the dictionary says so. -/
structure Named (file : List UInt8) (root n height : ℕ) (S : Session) (D : Dictionary) :
    Prop where
  mirrors : S.Mirrors D
  snug : S.Snug
  since : ∃ front, S.Since file root n front ∧
    (root < n → (front = root ↔ D.NamesRoot root height))
  same_root : root < n → (D.rootPid = root ↔ D.tree.height = height)
  height_le : height ≤ D.tree.height

/-- **One method.** -/
theorem Named.wrote (h : S.Named file root n height D) (hwf : D.WF)
    (hwrote : S.tree.Wrote S'.tree) (hD' : S'.Mirrors D')
    (hput : D' = D ∨ ∃ c : UInt32 × Row, c.1 ∉ D.cells.map Prod.fst ∧ D' = D.put c) :
    S'.Named file root n height D' := by
  obtain ⟨front, hsince, hfront⟩ := h.since
  have hnum := h.mirrors.numPages_eq.1
  have hnum' := hD'.numPages_eq.1
  have hroot := h.mirrors.getRootPage_eq
  have hle := hsince.numPages_le
  obtain ⟨front', hsince', hiff⟩ := hsince.wrote hwrote
  have hS' : S'.Since file root n front' := ⟨hsince'.remains, hsince'.numPages_le,
    hsince'.numPages_max, hsince'.front_lt, hsince'.front_old, hsince'.root_lt, hsince'.root_old,
    hsince'.moved⟩
  have hroot_lt : D.rootPid < D.numPages := by
    rw [← hroot, ← hnum]
    exact hsince.root_lt
  rw [hnum] at hle
  rw [hnum, hnum', hroot] at hiff
  suffices hnames : (∃ front, S'.Since file root n front ∧
      (root < n → (front = root ↔ D'.NamesRoot root height))) ∧
      (root < n → (D'.rootPid = root ↔ D'.tree.height = height)) ∧ height ≤ D'.tree.height from
    ⟨hD', h.snug.of_grows hwrote.grows, hnames.1, hnames.2.1, hnames.2.2⟩
  rcases hput with rfl | ⟨c, hc, rfl⟩
  · refine ⟨⟨front', hS', fun hlt => ?_⟩, h.same_root, h.height_le⟩
    rw [hiff hlt, ← hfront hlt]
    exact and_iff_left fun hlt => absurd hlt (lt_irrefl _)
  · obtain ⟨hpages, hcases⟩ := hwf.put_root hc
    have hheight := h.height_le
    rcases hcases with ⟨hh, hr⟩ | ⟨hh, hlast, hnew⟩
    · refine ⟨⟨front', hS', fun hlt => ?_⟩, fun hlt => ?_, hh ▸ hheight⟩
      · rw [hiff hlt, hfront hlt, Dictionary.NamesRoot, Dictionary.NamesRoot, hr, hh]
        -- a page more below the same root
        constructor
        · rintro ⟨heq | ⟨hgrown, hlast⟩, hadds⟩
          · exact Or.inl heq
          · by_cases hmore : D.numPages < (D.put c).numPages
            · exact Or.inl (hadds hmore)
            · exact Or.inr ⟨hgrown, by omega⟩
        · rintro (heq | ⟨hgrown, hlast⟩)
          · exact ⟨Or.inl heq, fun _ => heq⟩
          · exact ⟨Or.inr ⟨hgrown, by omega⟩, fun hmore => absurd hmore (by omega)⟩
      · rw [hr, hh]
        exact h.same_root hlt
    · refine ⟨⟨front', hS', fun hlt => ?_⟩, fun hlt => ?_, by omega⟩
      · -- the old root was named while the pages were added
        have hold : (D.put c).NamesRoot root height ↔ D.rootPid = root := by
          rw [h.same_root hlt, Dictionary.NamesRoot, hh]
          constructor
          · rintro (heq | ⟨hgrown, -⟩)
            · omega
            · omega
          · exact fun heq => Or.inr ⟨by omega, hlast⟩
        rw [hiff hlt, hfront hlt, hold]
        exact ⟨fun hboth => hboth.2 (by omega), fun heq => ⟨Or.inl heq, fun _ => heq⟩⟩
      · refine iff_of_false ?_ ?_
        · omega
        · omega

end Session

/-! ## Turns -/

namespace Shell

/-- The file when the process ends between two turns. -/
def file (shell : Shell) : List UInt8 := shell.session.tree.pager.fd.bytes

/-- The tree `i` page requests into the command of the next line. -/
def stopped (i : ℕ) (shell : Shell) : BPlusTree :=
  match parse (shell.memory 0) shell.cmd with
  | .ok (some (.insert row), _) =>
      shell.session.stopped i (.insert row.getPrimaryKey row.serialize)
  | .ok (some .select, _) => shell.session.stopped i (.select 0 uint32Max)
  | _ => shell.session.tree

/-- The file when the process ends there. -/
def cut (i : ℕ) (shell : Shell) : List UInt8 := (shell.stopped i).pager.fd.bytes

variable {shell shell' : Shell} {D : Dictionary}

/-- What a command runs on the tree. -/
lemma turn_wrote (hmax : shell.session.tree.pager.numPages ≤ tableMaxPages)
    (h : shell.turn = .ok (.running shell')) :
    shell.session.tree.Wrote shell'.session.tree := by
  rw [turn] at h
  obtain ⟨⟨query, said⟩, -, h⟩ := bind_eq_ok h
  cases query with
  | none =>
      cases h
      exact (BPlusTree.Wrote.refl hmax).wrote
  | some query =>
      obtain ⟨evaluated, heval, h⟩ := bind_eq_ok h
      cases query with
      | exit =>
          obtain ⟨file, -, heval⟩ := bind_eq_ok heval
          cases heval
          cases h
      | select =>
          obtain ⟨⟨cells, S⟩, hmethod, heval⟩ := bind_eq_ok heval
          obtain ⟨lines, -, heval⟩ := bind_eq_ok heval
          obtain ⟨⟨_, t⟩, ht, hmethod⟩ := bind_eq_ok hmethod
          cases hmethod
          cases heval
          cases h
          exact .run (BPlusTree.follows_of_reads
            (BPlusTree.only_selectRows (fun _ ho => ho.reads) _ _ _)) hmax ht
      | insert row =>
          obtain ⟨⟨status, S⟩, hmethod, heval⟩ := bind_eq_ok heval
          obtain ⟨⟨_, t⟩, ht, hmethod⟩ := bind_eq_ok hmethod
          cases hmethod
          have hwrote := BPlusTree.Wrote.run (BPlusTree.follows_insert _ _ _) hmax ht
          cases status with
          | success =>
              cases heval
              cases h
              exact hwrote
          | failDuplicateKey =>
              cases heval
              cases h
              exact hwrote

end Shell

/-- What is known of a shell that was started on a file with this root. -/
structure Shell.Opened (file : List UInt8) (root n height : ℕ) (shell : Shell) (D : Dictionary) :
    Prop where
  holds : shell.Holds D
  named : shell.session.Named file root n height D

namespace Shell.Opened

variable {file : List UInt8} {root n height : ℕ} {shell shell' : Shell} {D : Dictionary}

/-- **One turn.** -/
lemma turn (h : shell.Opened file root n height D) (hturn : shell.turn = .ok (.running shell')) :
    ∃ D', shell'.Opened file root n height D' := by
  have hwrote := turn_wrote (h.named.mirrors.numPages_eq.1.trans_le h.named.mirrors.numPages_eq.2)
    hturn
  have hwf := h.holds.steady.wf
  have hspec := h.holds.turn
  rw [hturn] at hspec
  cases hspec with
  | same session said hexit hinsert hselect hmirrors =>
      exact ⟨D, h.holds.same hmirrors said, h.named.wrote hwf hwrote hmirrors (Or.inl rfl)⟩
  | put session row hinsert hrow hfields hfit hne hmirrors =>
      exact ⟨_, h.holds.put hfields hne hmirrors [],
        h.named.wrote hwf hwrote hmirrors (Or.inr ⟨(row.getPrimaryKey, row.serialize), hne, rfl⟩)⟩

/-- A run. -/
lemma turns {start : Shell} (h : ∃ D, start.Opened file root n height D) :
    ∀ {m : ℕ} {shell : Shell}, DbToy.turns m (.running start) = .ok (.running shell) →
      ∃ D, shell.Opened file root n height D := by
  intro m
  induction m with
  | zero =>
      intro shell hshell
      cases hshell
      exact h
  | succ m ih =>
      intro shell hshell
      obtain ⟨shell₁, hshell₁, hturn⟩ := exists_of_turns_running hshell
      obtain ⟨D, hopened⟩ := ih hshell₁
      exact hopened.turn hturn

/-- **The process ends** inside a turn. -/
lemma stopped (h : shell.Opened file root n height D) (i : ℕ) :
    ∃ front, Session.Since file root n front { shell.session with tree := shell.stopped i } := by
  obtain ⟨front, hsince, -⟩ := h.named.since
  have hwrote : shell.session.tree.Wrote (shell.stopped i) := by
    rw [Shell.stopped]
    split
    · exact Session.stopped_wrote hsince.numPages_max rfl i
    · exact Session.stopped_wrote hsince.numPages_max rfl i
    · exact (BPlusTree.Wrote.refl hsince.numPages_max).wrote
  obtain ⟨front', hsince', -⟩ := hsince.wrote hwrote
  exact ⟨front', hsince'⟩

end Shell.Opened

/-! ## Files of shells -/

/-- The files that shells leave, each started on the file of the one before. -/
inductive LeftByShells : Option (List UInt8) → Prop
  | new : LeftByShells none
  | exited {file : Option (List UInt8)} {counts : ℕ → ℕ} {malloc : ℕ → Page} {memory : ℕ → Uninit}
      {stdin file' stdout : List UInt8} {p : Process} {n : ℕ} : LeftByShells file →
      main file counts malloc memory stdin = .ok p → turns n p = .ok (.exited file' stdout) →
      LeftByShells (some file')

/-- What a shell finds in such a file: the pages of its tree, and no more. -/
structure Tidy (file : Option (List UInt8)) (D : Dictionary) : Prop where
  found : Found file D
  length_le : ∀ saved, file = some saved → saved.length ≤ pageStart D.numPages

namespace Tidy

variable {file : Option (List UInt8)} {D : Dictionary} {counts : ℕ → ℕ} {malloc : ℕ → Page}
  {memory : ℕ → Uninit} {stdin : List UInt8} {p : Process}

/-- **The start.** -/
lemma main (h : Tidy file D) (hmain : DbToy.main file counts malloc memory stdin = .ok p) :
    ∃ start root n height, p = .running start ∧
      (file = none → n = 0) ∧ (∀ saved, file = some saved → root = D.rootPid ∧ n = D.numPages ∧
        height = D.tree.height ∧ root < n) ∧
      start.Opened (file.getD []) root n height D := by
  obtain ⟨start, hstart, -, hholds⟩ := main_found h.found counts malloc memory stdin
  cases hmain.symm.trans hstart
  obtain ⟨S, hS, hstart⟩ := bind_eq_ok hstart
  cases hstart
  cases file with
  | none =>
      have hsince := Session.create_since mainParams_valid hS
      exact ⟨_, 0, 0, 0, rfl, fun _ => rfl, by rintro _ ⟨⟩, hholds, hholds.mirrors,
        Session.create_snug hS, ⟨0, hsince, fun hlt => absurd hlt (lt_irrefl _)⟩,
        fun hlt => absurd hlt (lt_irrefl _), Nat.zero_le _⟩
  | some saved =>
      obtain ⟨hsaved, hsteady, -⟩ := h.found
      obtain ⟨S', hS', huntouched⟩ := hsaved.load_untouched mainParams_valid.leafLoad
        mainParams_valid.innerNodeLoad counts malloc
      rw [hsteady.withLoads] at hS' huntouched
      rw [hsteady.params_eq] at hS'
      cases hS.symm.trans hS'
      have hsince := huntouched.since
      have hnum := hholds.mirrors.numPages_eq.1
      have hlt : D.rootPid < D.numPages := hnum ▸ hsince.front_lt
      have hlen := h.length_le saved rfl
      have hsnug : S.Snug := by
        obtain ⟨s, hs⟩ := huntouched
        rw [Session.Snug, hs.bytes_eq]
        exact hnum.symm ▸ hlen
      refine ⟨_, D.rootPid, D.numPages, D.tree.height, rfl, by rintro ⟨⟩, ?_, hholds,
        hholds.mirrors, hsnug, ⟨D.rootPid, hsince, fun _ => iff_of_true rfl (Or.inl rfl)⟩,
        fun _ => iff_of_true rfl rfl, le_rfl⟩
      intro saved' _
      exact ⟨rfl, rfl, rfl, hlt⟩

end Tidy

lemma Shell.turn_exited {shell : Shell} {file stdout : List UInt8}
    (h : shell.turn = .ok (.exited file stdout)) : shell.session.tree.destroy = .ok file := by
  rw [turn] at h
  obtain ⟨⟨query, said⟩, -, h⟩ := bind_eq_ok h
  cases query with
  | none => cases h
  | some query =>
      obtain ⟨evaluated, heval, h⟩ := bind_eq_ok h
      cases query with
      | exit =>
          obtain ⟨file', hfile, heval⟩ := bind_eq_ok heval
          cases heval
          cases h
          exact hfile
      | select =>
          obtain ⟨⟨cells, S⟩, -, heval⟩ := bind_eq_ok heval
          obtain ⟨lines, -, heval⟩ := bind_eq_ok heval
          cases heval
          cases h
      | insert row =>
          obtain ⟨⟨status, S⟩, -, heval⟩ := bind_eq_ok heval
          cases status with
          | success =>
              cases heval
              cases h
          | failDuplicateKey =>
              cases heval
              cases h

/-- **Every file that shells leave** holds the rows of a dictionary, and no more. -/
theorem LeftByShells.tidy {file : Option (List UInt8)} (h : LeftByShells file) :
    ∃ D, Tidy file D := by
  induction h with
  | new => exact ⟨.create mainParams, Found.none, by rintro _ ⟨⟩⟩
  | exited hfile hmain hexited ih =>
      obtain ⟨D₀, htidy⟩ := ih
      obtain ⟨start, root, n, height, rfl, -, -, hopened⟩ := htidy.main hmain
      obtain ⟨m, shell, hshell, hturn, -⟩ := exists_of_turns_exited hexited
      obtain ⟨D, hopened'⟩ := Shell.Opened.turns ⟨D₀, hopened⟩ hshell
      have hdestroy := Shell.turn_exited hturn
      have hmirrors := hopened'.named.mirrors
      obtain ⟨file', hdestroy', hsaved⟩ := hmirrors.exists_saved
      cases hdestroy.symm.trans hdestroy'
      refine ⟨D, ⟨hsaved, hopened'.holds.steady, hopened'.holds.printable⟩, ?_⟩
      intro saved heq
      cases heq
      have hsnug := hopened'.named.snug
      rw [Session.Snug, hmirrors.numPages_eq.1] at hsnug
      obtain ⟨s, hs⟩ := hmirrors
      have hlen := BTreePager.destroy_length hs.represents.pager (hs.numPages ▸ hsnug) hdestroy
      rwa [hs.numPages] at hlen

lemma Recovers.not_lost {file : List UInt8} {D : Dictionary} (h : Recovers file D)
    (hD : D.params.Valid) : ¬Lost file := by
  intro hlost
  obtain ⟨S, hS, -⟩ := h _ _ hD.leafLoad hD.innerNodeLoad (fun _ => 0) fun _ => Page.filled 0
  cases hS.symm.trans (hlost _ _ _)

/-- **A shell that ends without `.exit`**, `i` page requests into the command of its next line, was
it killed or did a string of that line not fit its column.  It was started on no file, or on one
that shells had left with the rows of `D`; it has the rows of `D'` by now.

A database that was new is lost.  In the other one the pages are still those of `D`.  Between two
turns all rows of `D` are found if `D'` has the root of `D`, or the first new one and no page added
since (`NamesRoot`); else the file does not open.  Inside a turn it is one of the two as well. -/
theorem killed_shell {file : Option (List UInt8)} (hfile : LeftByShells file) {counts : ℕ → ℕ}
    {malloc : ℕ → Page} {memory : ℕ → Uninit} {stdin : List UInt8} {p : Process} {n : ℕ}
    {shell : Shell} (hmain : main file counts malloc memory stdin = .ok p)
    (hshell : turns n p = .ok (.running shell)) :
    ∃ D D', Found file D ∧ shell.Holds D' ∧
      (IsInsert shell.cmd → ¬FitsColumns (shell.memory 0) shell.cmd →
        (∃ cond, shell.turn = .error (.assertFailed cond)) ∧ ∀ i, shell.cut i = shell.file) ∧
      (file = none → Lost shell.file ∧ ∀ i, Lost (shell.cut i)) ∧
      ∀ saved, file = some saved →
        (Recovers shell.file D ↔ D'.NamesRoot D.rootPid D.tree.height) ∧
        (Lost shell.file ↔ ¬D'.NamesRoot D.rootPid D.tree.height) ∧
        ∀ i, (shell.cut i).drop 16 = saved.drop 16 ∧
          (Recovers (shell.cut i) D ∨ Lost (shell.cut i)) := by
  obtain ⟨D, htidy⟩ := hfile.tidy
  obtain ⟨start, root, m, height, rfl, hnone, hsome, hopened⟩ := htidy.main hmain
  obtain ⟨D', hopened'⟩ := Shell.Opened.turns ⟨D, hopened⟩ hshell
  refine ⟨D, D', htidy.found, hopened'.holds, ?_, ?_, ?_⟩
  · intro hinsert hfit
    obtain ⟨cond, hcond⟩ := UserInfo.fromString_of_not_fit (UserInfo.new (shell.memory 0))
      (readFields_eq (shell.memory 0) shell.cmd) hfit
    have hparse : parse (shell.memory 0) shell.cmd = .error (.assertFailed cond) := by
      rw [parse_insert hinsert, hcond, error_bind]
    refine ⟨⟨cond, ?_⟩, fun i => ?_⟩
    · rw [Shell.turn]
      show (parse (shell.memory 0) shell.cmd >>= _) = _
      rw [hparse, error_bind]
    · rw [Shell.cut, Shell.stopped, hparse]
      rfl
  · rintro rfl
    obtain rfl := hnone rfl
    obtain ⟨front, hsince, -⟩ := hopened'.named.since
    refine ⟨hsince.lost (Nat.zero_le _) (Nat.zero_le _), fun i => ?_⟩
    obtain ⟨front', hsince'⟩ := hopened'.stopped i
    exact hsince'.lost (Nat.zero_le _) (Nat.zero_le _)
  · rintro saved rfl
    obtain ⟨rfl, rfl, rfl, hlt⟩ := hsome saved rfl
    obtain ⟨hsaved, hsteady, -⟩ := htidy.found
    have hlen := htidy.length_le saved rfl
    obtain ⟨front, hsince, hfront⟩ := hopened'.named.since
    have hrecovers : ∀ {S : Session}, S.Since saved D.rootPid D.numPages D.rootPid →
        Recovers S.tree.pager.fd.bytes D := fun h => h.recovers hsaved
    have hnames := hfront hlt
    have hkept : D'.NamesRoot D.rootPid D.tree.height → Recovers shell.file D := by
      intro h
      obtain rfl := hnames.mpr h
      exact hrecovers hsince
    have hgone : ¬D'.NamesRoot D.rootPid D.tree.height → Lost shell.file := by
      intro h
      have hnew := hsince.front_old.resolve_left fun heq => h (hnames.mp heq)
      exact hsince.lost hnew hlen
    refine ⟨⟨fun h => ?_, hkept⟩, ⟨fun h hnamed => ?_, hgone⟩, fun i => ?_⟩
    · by_contra hnot
      exact h.not_lost hsteady.wf.valid (hgone hnot)
    · exact (hkept hnamed).not_lost hsteady.wf.valid h
    · obtain ⟨front', hsince'⟩ := hopened'.stopped i
      refine ⟨hsince'.remains.drop_eq, hsince'.front_old.imp ?_ fun hnew => hsince'.lost hnew hlen⟩
      rintro rfl
      exact @hrecovers { shell.session with tree := shell.stopped i } hsince'

/-- A line with a number of two digits. -/
def numberedLine (tens units : Fin 10) : InsertLine :=
  { smallInsert with
    id := ⟨.none, [UInt8.ofNat (48 + tens), UInt8.ofNat (48 + units)], List.cons_ne_nil _ _,
      List.all_eq_true.mp (by revert tens units; decide), by revert tens units; decide⟩ }

def numberedLines : List InsertLine :=
  (List.finRange 10).flatMap fun tens => (List.finRange 10).map (numberedLine tens)

/-- As many rows as a leaf has room for. -/
def leafOfRows : Dictionary :=
  (Dictionary.create mainParams).addAll (lineCells (fun _ => smallMemory) (numberedLines.take 56))

/-- And the rows of the next lines. -/
def moreRows (n : ℕ) : Dictionary :=
  leafOfRows.addAll (lineCells (fun _ => smallMemory) (((numberedLines.drop 56).take 30).take n))

/-- A name of 32 characters for a column of 32. -/
def oversized : List UInt8 := bytesOf "insert 1 " ++ List.replicate 32 97 ++ bytesOf " a"

lemma exists_leafOfRows : ∃ saved, LeftByShells (some saved) ∧ Found (some saved) leafOfRows := by
  have hlines : ∀ line ∈ (numberedLines.take 56).map InsertLine.bytes ++ [bytesOf ".exit"],
      newline ∉ line := by decide +kernel
  have hroom : leafOfRows.numPages ≤ tableMaxPages := by decide +kernel
  obtain ⟨start, hmain, hhas, hholds⟩ := main_found Found.none (fun _ => 0)
    (fun _ => Page.filled 7) (fun _ => smallMemory)
    (inputOf (numberedLines.take 56) (bytesOf ".exit"))
  obtain ⟨shell, hshell, hhas', hholds'⟩ := (turns_addAll hhas hholds (inputOf_read hlines) _
    le_rfl).resolve_right fun h => by
      rw [List.take_length] at h
      exact absurd h.1 (not_lt_of_ge hroom)
  rw [List.take_length] at hholds'
  obtain ⟨saved, stdout, hturn, hsaved⟩ :=
    hholds'.turn_saved (hhas'.cmd.trans (inputOf_last hlines))
  exact ⟨saved, .exited .new hmain ((turns_succ_of_running hshell).trans hturn), hsaved,
    hholds'.steady, hholds'.printable⟩

/-- A shell leaves a full leaf.  The next one splits it: killed right after that, it leaves a file
with the old rows.  Some rows later it has added a page under the new root, and the file does not
open any more.  There it is given the oversized name. -/
theorem killed_shell_split : ∃ saved start early late,
    LeftByShells (some saved) ∧ Found (some saved) leafOfRows ∧
      main (some saved) (fun _ => 0) (fun _ => Page.filled 9) (fun _ => smallMemory)
        (inputOf ((numberedLines.drop 56).take 30) oversized) = .ok (.running start) ∧
      turns 1 (.running start) = .ok (.running early) ∧ early.Holds (moreRows 1) ∧
      (moreRows 1).rootPid ≠ leafOfRows.rootPid ∧ Recovers early.file leafOfRows ∧
      turns 30 (.running start) = .ok (.running late) ∧ Lost late.file ∧
      ∃ cond, late.turn = .error (.assertFailed cond) := by
  obtain ⟨saved, hleft, hfound⟩ := exists_leafOfRows
  have hlines : ∀ line ∈ ((numberedLines.drop 56).take 30).map InsertLine.bytes ++ [oversized],
      newline ∉ line := by decide +kernel
  have hroom : ∀ n ≤ 30, (moreRows n).numPages ≤ tableMaxPages := by decide +kernel
  have hlength : ((numberedLines.drop 56).take 30).length = 30 := by decide +kernel
  obtain ⟨start, hmain, hhas, hholds⟩ := main_found hfound (fun _ => 0) (fun _ => Page.filled 9)
    (fun _ => smallMemory) (inputOf ((numberedLines.drop 56).take 30) oversized)
  have hrun : ∀ n ≤ 30, ∃ shell, turns n (.running start) = .ok (.running shell) ∧
      shell.HasRead n (inputOf ((numberedLines.drop 56).take 30) oversized) (fun _ => smallMemory) ∧
      shell.Holds (moreRows n) := fun n hn =>
    (turns_addAll hhas hholds (inputOf_read hlines) n (hn.trans_eq hlength.symm)).resolve_right
      fun h => absurd h.1 (not_lt_of_ge (hroom n hn))
  obtain ⟨early, hearly, -, hholds₁⟩ := hrun 1 (by decide)
  obtain ⟨late, hlate, hhas₂, hholds₂⟩ := hrun 30 le_rfl
  obtain ⟨D, D₁, hfound₁, hheld₁, -, -, hkilled₁⟩ := killed_shell hleft hmain hearly
  obtain rfl := hfound.unique hfound₁
  obtain rfl := hholds₁.mirrors.unique hheld₁.mirrors
  obtain ⟨D, D₂, hfound₂, hheld₂, habort, -, hkilled₂⟩ := killed_shell hleft hmain hlate
  obtain rfl := hfound.unique hfound₂
  obtain rfl := hholds₂.mirrors.unique hheld₂.mirrors
  have hcmd : late.cmd = oversized := hhas₂.cmd.trans (hlength ▸ inputOf_last hlines)
  refine ⟨saved, start, early, late, hleft, hfound, hmain, hearly, hholds₁, by decide +kernel,
    (hkilled₁ saved rfl).1.mpr (by decide +kernel), hlate,
    (hkilled₂ saved rfl).2.1.mpr (by decide +kernel), (habort ?_ ?_).1⟩
  · rw [hcmd]
    decide
  · rw [hcmd, hhas₂.memory_zero]
    decide

end DbToy
