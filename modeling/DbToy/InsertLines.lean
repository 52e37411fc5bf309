import DbToy.CommandLine
import DbToy.PageTable

/-!
# What an insert line adds

`from_string` never looks at the state of its stream, and `parse` cuts behind the sixth byte
whatever stands there.  So the lines that add a row and should not are those whose words are not
`insert`, a numeral and two strings (`insert_adds_form_iff`): a line without a number adds the row 0
(`malformed_line_adds_row`).
-/

namespace DbToy

open SearchTree Istream

/-- What the cell stores is the row with this number and these strings, under the number as key. -/
def Stores (c : UInt32 × Row) (id : ℤ) (username email : List UInt8) : Prop :=
  c.1 = (Int32.ofInt id).toUInt32 ∧ ∃ row, UserInfo.deserialize c.2 = .ok row ∧
    row.id.toInt = id ∧ row.username.toString = .ok username ∧ row.email.toString = .ok email

/-- If the evaluation of the line changes the tree, then the line has the right form, and the tree
has one cell more: one that stores exactly the fields that the line says. -/
def AddsOnlyForm (mem : Uninit) (S : Session) (cmd : List UInt8) : Prop :=
  ∀ query out status S' said D D', parse mem cmd = .ok (some query, out) →
    query.evaluate S = .ok (.result status S' said) → S.Mirrors D → S'.Mirrors D' → D ≠ D' →
      ∃ id username email c, IsInsertOf cmd id username email ∧ Stores c id username email ∧
        c.1 ∉ D.cells.map Prod.fst ∧ D' = D.put c

/-- The words of the line are `insert`, the numeral of an `int`, and two strings without a NUL. -/
def IsPlain (cmd : List UInt8) : Prop :=
  ∃ numeral username email id, words cmd = [bytesOf "insert", numeral, username, email] ∧
    IsNumeralOf numeral id ∧ 0 ∉ username ∧ 0 ∉ email

/-- The key that the words of an insertion give. -/
def lineKey (mem : Uninit) (cmd : List UInt8) : UInt32 :=
  (Int32.ofInt (lineFields mem cmd).1).toUInt32

/-- A string of the line is too long for its column. -/
def TooLong (mem : Uninit) (cmd : List UInt8) : Prop :=
  colUsernameSize ≤ (lineFields mem cmd).2.1.length ∨ colEmailSize ≤ (lineFields mem cmd).2.2.length

/-- The key of the line is in the tree, or the page table has no room for another one. -/
def IsRefused (D : Dictionary) (mem : Uninit) (cmd : List UInt8) : Prop :=
  lineKey mem cmd ∈ D.cells.map Prod.fst ∨ ¬D.HasRoom (.insert (lineKey mem cmd) [])

instance (mem : Uninit) (cmd : List UInt8) : Decidable (TooLong mem cmd) :=
  inferInstanceAs (Decidable (_ ∨ _))

instance (D : Dictionary) (mem : Uninit) (cmd : List UInt8) : Decidable (IsRefused D mem cmd) :=
  inferInstanceAs (Decidable (_ ∨ _))

lemma fitsColumns_iff {mem : Uninit} {cmd : List UInt8} :
    FitsColumns mem cmd ↔ ¬TooLong mem cmd := by
  rw [FitsColumns, fieldsOf_eq, UserInfo.FitColumns, TooLong, not_or, not_le, not_le]

/-- The lines that are plain, by what is read of them. -/
lemma isPlain_iff {cmd : List UInt8} (hcmd : IsInsert cmd) (mem : Uninit) :
    IsPlain cmd ↔ ∃ id username email, IsInsertOf cmd id username email ∧
      fieldsOf mem cmd = (id, username, email) ∧ 0 ∉ username ∧ 0 ∉ email := by
  constructor
  · rintro ⟨numeral, username, email, id, hwords, hid, hu, he⟩
    have hform := (isInsertOf_iff_words hcmd).mpr ⟨numeral, hwords, hid⟩
    exact ⟨id, username, email, hform, hform.fieldsOf_eq mem, hu, he⟩
  · rintro ⟨id, username, email, hform, -, hu, he⟩
    obtain ⟨numeral, hwords, hid⟩ := (isInsertOf_iff_words hcmd).mp hform
    exact ⟨numeral, username, email, id, hwords, hid, hu, he⟩

section

variable {mem : Uninit} {cmd : List UInt8} (hcmd : IsInsert cmd)

include hcmd

/-- What is parsed is a row with the fields, and its strings fit. -/
lemma insert_of_parse {query : Command} {out : List UInt8}
    (hparse : parse mem cmd = .ok (some query, out)) : FitsColumns mem cmd ∧ ∃ row,
      query = .insert row ∧
      row.HasFields (fieldsOf mem cmd).1 (fieldsOf mem cmd).2.1 (fieldsOf mem cmd).2.2 := by
  by_cases hfit : FitsColumns mem cmd
  · obtain ⟨row, hparse', hfields⟩ := parse_of_fits hcmd hfit
    cases hparse.symm.trans hparse'
    exact ⟨hfit, row, rfl, hfields⟩
  · obtain ⟨cond, hcond⟩ :=
      UserInfo.fromString_of_not_fit (UserInfo.new mem) (readFields_eq mem cmd) hfit
    rw [parse_insert hcmd, hcond, error_bind] at hparse
    exact nomatch hparse

end

/-- The row with the fields is stored with them, if the number is an `int` and the strings do not
have a NUL. -/
lemma UserInfo.HasFields.stores {row : UserInfo} {id : ℤ} {username email : List UInt8}
    (h : row.HasFields id username email) (hlow : -2 ^ 31 ≤ id) (hhigh : id < 2 ^ 31)
    (hu : 0 ∉ username) (he : 0 ∉ email) :
    Stores (row.getPrimaryKey, row.serialize) id username email := by
  refine ⟨h.getPrimaryKey, row, row.deserialize_serialize, ?_, ?_, ?_⟩
  · rw [h.id]
    exact Int32.toInt_ofInt_of_le hlow hhigh
  · rw [h.username, CharArray.cString_eq_self.mpr hu]
  · rw [h.email, CharArray.cString_eq_self.mpr he]

/-- Only strings without a NUL are stored as they are. -/
lemma UserInfo.HasFields.zero_notMem {row : UserInfo} {id id' : ℤ} {username email : List UInt8}
    {key : UInt32} (h : row.HasFields id username email)
    (hstores : Stores (key, row.serialize) id' username email) : 0 ∉ username ∧ 0 ∉ email := by
  obtain ⟨-, row', hload, -, hu, he⟩ := hstores
  cases hload.symm.trans row.deserialize_serialize
  exact ⟨CharArray.cString_eq_self.mp (Except.ok.inj (h.username.symm.trans hu)),
    CharArray.cString_eq_self.mp (Except.ok.inj (h.email.symm.trans he))⟩

lemma IsInsertOf.range {cmd : List UInt8} {id : ℤ} {username email : List UInt8}
    (h : IsInsertOf cmd id username email) : -2 ^ 31 ≤ id ∧ id < 2 ^ 31 := by
  obtain ⟨_, _, _, _, _, -, ⟨_, _, -, -, -, -, hlow, hhigh⟩, -⟩ := h
  exact ⟨hlow, hhigh⟩

/-- The cell that was put is determined by the tree with it, and the tree without it. -/
lemma Dictionary.WF.put_inj {D : Dictionary} (hD : D.WF) {c d : UInt32 × Row}
    (hc : c.1 ∉ D.cells.map Prod.fst) (hd : d.1 ∉ D.cells.map Prod.fst) (h : D.put c = D.put d) :
    c = d := by
  have hcells : putCell c D.cells = putCell d D.cells := by
    rw [← (hD.put hc).2, ← (hD.put hd).2, h]
  have hmem : c ∈ putCell d D.cells := hcells ▸ mem_putCell.mpr (Or.inl rfl)
  rcases mem_putCell.mp hmem with heq | hmem
  · exact heq
  · exact absurd (List.mem_map_of_mem hmem) hc

section

variable {S : Session} {D : Dictionary} (hS : S.Mirrors D) (hD : D.Steady mainParams)
  {mem : Uninit} {cmd : List UInt8}

include hS hD

/-- A row with a new key is added, if there is room. -/
lemma adds_of_new (hcmd : IsInsert cmd) (hfit : ¬TooLong mem cmd) (hnew : ¬IsRefused D mem cmd) :
    ∃ row S', parse mem cmd = .ok (some (.insert row), []) ∧
      row.HasFields (fieldsOf mem cmd).1 (fieldsOf mem cmd).2.1 (fieldsOf mem cmd).2.2 ∧
      row.getPrimaryKey ∉ D.cells.map Prod.fst ∧
      Command.evaluate S (.insert row) = .ok (.result .executeSuccess S' []) ∧
      S'.Mirrors (D.put (row.getPrimaryKey, row.serialize)) := by
  rw [IsRefused, not_or, not_not] at hnew
  obtain ⟨hkey, hroom⟩ := hnew
  obtain ⟨row, hparse, hfields⟩ := parse_of_fits hcmd (fitsColumns_iff.mpr hfit)
  have hrowkey : row.getPrimaryKey = lineKey mem cmd := by
    rw [hfields.getPrimaryKey, fieldsOf_eq, lineKey]
  have hne : row.getPrimaryKey ∉ D.cells.map Prod.fst := hrowkey ▸ hkey
  refine ⟨row, ?_⟩
  rcases evaluate_insert hS hD row with ⟨hmem, -⟩ | ⟨-, ⟨S', hmirrors, -, heval⟩ | ⟨hfull, -⟩⟩
  · exact absurd hmem hne
  · exact ⟨S', hparse, hfields, hne, heval, hmirrors⟩
  · rw [D.put_numPages, hrowkey] at hfull
    exact absurd (hroom hkey) (not_le.mpr hfull)

/-- Only a row with a new key changes the tree, and it is put there. -/
lemma put_of_changes {row : UserInfo} (hrowkey : row.getPrimaryKey = lineKey mem cmd) {S' : Session}
    {status : ExecuteStatus} {said : List UInt8} {D' : Dictionary}
    (heval : Command.evaluate S (.insert row) = .ok (.result status S' said))
    (hS' : S'.Mirrors D') (hdiff : D ≠ D') : ¬IsRefused D mem cmd ∧
      row.getPrimaryKey ∉ D.cells.map Prod.fst ∧ D' = D.put (row.getPrimaryKey, row.serialize) := by
  rcases evaluate_insert hS hD row with ⟨-, S₁, hmirrors, heval'⟩ |
    ⟨hne, ⟨S₁, hmirrors, hroom, heval'⟩ | ⟨-, heval'⟩⟩
  · cases heval.symm.trans heval'
    exact absurd (hmirrors.unique hS') hdiff
  · cases heval.symm.trans heval'
    rw [D.put_numPages, hrowkey] at hroom
    refine ⟨?_, hne, hS'.unique hmirrors⟩
    rintro (hkey | hfull)
    · exact hne (hrowkey ▸ hkey)
    · exact hfull fun _ => hroom
  · exact nomatch heval.symm.trans heval'

/-- **A line adds a row only in the right form** exactly if it is plain, or does not add a row
anyway: a string is too long, its key is there, or there is no room. -/
theorem insert_adds_form_iff (hcmd : IsInsert cmd) : AddsOnlyForm mem S cmd ↔
    IsPlain cmd ∨ TooLong mem cmd ∨ IsRefused D mem cmd := by
  constructor
  · intro h
    by_cases hfit : TooLong mem cmd
    · exact Or.inr (Or.inl hfit)
    by_cases hnew : IsRefused D mem cmd
    · exact Or.inr (Or.inr hnew)
    obtain ⟨row, S', hparse, hfields, hkey, heval, hS'⟩ := adds_of_new hS hD hcmd hfit hnew
    obtain ⟨id, username, email, c, hform, hstores, hc, hput⟩ :=
      h _ _ _ S' _ D _ hparse heval hS hS' (hD.wf.put_ne hkey).symm
    obtain rfl := hD.wf.put_inj hkey hc hput
    have hread := hform.fieldsOf_eq mem
    rw [hread] at hfields
    exact Or.inl ((isPlain_iff hcmd mem).mpr
      ⟨id, username, email, hform, hread, hfields.zero_notMem hstores⟩)
  · intro h query out status S' said D₁ D' hparse heval hD₁ hD' hdiff
    cases hS.unique hD₁
    obtain ⟨hfit, row, rfl, hfields⟩ := insert_of_parse hcmd hparse
    have hrowkey : row.getPrimaryKey = lineKey mem cmd := by
      rw [hfields.getPrimaryKey, fieldsOf_eq, lineKey]
    obtain ⟨hnew, hkey, hput⟩ := put_of_changes hS hD hrowkey heval hD' hdiff
    rcases h with hplain | hlong | hrefused
    · obtain ⟨id, username, email, hform, hread, hu, he⟩ := (isPlain_iff hcmd mem).mp hplain
      rw [hread] at hfields
      exact ⟨id, username, email, _, hform, hfields.stores hform.range.1 hform.range.2 hu he, hkey,
        hput⟩
    · exact absurd hlong (fitsColumns_iff.mp hfit)
    · exact absurd hrefused hnew

end

/-! ## Two lines -/

lemma exists_initalize_create : ∃ S, initalize none (fun _ => 0) (fun _ => Page.filled 7) = .ok S ∧
    S.Mirrors (.create mainParams) ∧ (Dictionary.create mainParams).Steady mainParams := by
  obtain ⟨S, hstart, hS, hD, -⟩ :=
    initalize_found Found.none (fun _ => 0) (fun _ => Page.filled 7)
  exact ⟨S, hstart, hS, hD⟩

def aliceLine : List UInt8 := bytesOf "insert 1 alice alice@google.com"

/-- A plain line adds its row. -/
theorem insert_adds_form_iff_alice : ∃ S row S',
    initalize none (fun _ => 0) (fun _ => Page.filled 7) = .ok S ∧
      AddsOnlyForm smallMemory S aliceLine ∧ IsPlain aliceLine ∧
      parse smallMemory aliceLine = .ok (some (.insert row), []) ∧
      Command.evaluate S (.insert row) = .ok (.result .executeSuccess S' []) ∧
      S.Mirrors (.create mainParams) ∧
      S'.Mirrors ((Dictionary.create mainParams).put (1, row.serialize)) ∧
      (Dictionary.create mainParams).put (1, row.serialize) ≠ .create mainParams ∧
      Stores (1, row.serialize) 1 (bytesOf "alice") (bytesOf "alice@google.com") := by
  obtain ⟨S, hstart, hS, hD⟩ := exists_initalize_create
  have hcmd : IsInsert aliceLine := by decide
  have hplain : IsPlain aliceLine := ⟨bytesOf "1", bytesOf "alice", bytesOf "alice@google.com", 1,
    by decide, ⟨.none, bytesOf "1", rfl, by decide, by decide +kernel, by decide, by decide,
      by decide⟩, by decide, by decide⟩
  obtain ⟨row, S', hparse, hfields, hkey, heval, hS'⟩ := adds_of_new hS hD hcmd
    (by decide : ¬TooLong smallMemory aliceLine) (by decide)
  have hread : fieldsOf smallMemory aliceLine
      = (1, bytesOf "alice", bytesOf "alice@google.com") := by decide
  rw [hread] at hfields
  have hone : row.getPrimaryKey = 1 := hfields.getPrimaryKey
  have hstores := hfields.stores (by decide) (by decide) (by decide) (by decide)
  rw [hone] at hkey hS' hstores
  exact ⟨S, row, S', hstart, (insert_adds_form_iff hS hD hcmd).mpr (Or.inl hplain), hplain, hparse,
    heval, hS, hS', hD.wf.put_ne hkey, hstores⟩

/-- `insert abc`: there is no number. -/
def noNumber : List UInt8 := bytesOf "insert abc"

/-- **A line without a number adds a row**, with the number 0 and empty strings. -/
theorem malformed_line_adds_row : ∃ S row S',
    initalize none (fun _ => 0) (fun _ => Page.filled 7) = .ok S ∧
      IsInsert noNumber ∧ ¬AddsOnlyForm smallMemory S noNumber ∧
      parse smallMemory noNumber = .ok (some (.insert row), []) ∧
      Command.evaluate S (.insert row) = .ok (.result .executeSuccess S' []) ∧
      S.Mirrors (.create mainParams) ∧
      S'.Mirrors ((Dictionary.create mainParams).put (0, row.serialize)) ∧
      Stores (0, row.serialize) 0 [] [] := by
  obtain ⟨S, hstart, hS, hD⟩ := exists_initalize_create
  have hcmd : IsInsert noNumber := by decide
  obtain ⟨row, S', hparse, hfields, hkey, heval, hS'⟩ := adds_of_new hS hD hcmd
    (by decide : ¬TooLong smallMemory noNumber) (by decide)
  have hread : fieldsOf smallMemory noNumber = (0, [], []) := by decide
  rw [hread] at hfields
  have hzero : row.getPrimaryKey = 0 := hfields.getPrimaryKey
  have hstores := hfields.stores (by decide) (by decide) List.not_mem_nil List.not_mem_nil
  refine ⟨S, row, S', hstart, hcmd, ?_, hparse, heval, hS, hzero ▸ hS', hzero ▸ hstores⟩
  intro h
  obtain ⟨id, username, email, c, hform, -⟩ :=
    h _ _ _ S' _ _ _ hparse heval hS hS' (hD.wf.put_ne hkey).symm
  obtain ⟨numeral, hwords, -⟩ := (isInsertOf_iff_words hcmd).mp hform
  have htwo : words noNumber = [bytesOf "insert", bytesOf "abc"] := by decide
  exact nomatch hwords.symm.trans htwo

end DbToy
