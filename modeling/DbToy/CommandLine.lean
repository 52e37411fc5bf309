import DbToy.ShellRuns

/-!
# Command lines

The lines that are commands.  `parse` takes every line that begins with `insert` for an insertion;
`IsInsertOf` says which of them have the form `insert <id> <username> <email>`, and
`isInsertOf_iff_words` tells them by their words.  What an insertion takes from a line of any form
is up to the words behind its sixth byte (`fieldsOf_eq`).
-/

namespace DbToy

open Istream

/-- White space, at least one character of it. -/
def IsGap (gap : List UInt8) : Prop := gap ≠ [] ∧ ∀ b ∈ gap, isSpace b = true

/-- A decimal numeral, perhaps with a sign, for a number that is an `int`. -/
def IsNumeralOf (numeral : List UInt8) (n : ℤ) : Prop :=
  ∃ (sign : Sign) (ds : List UInt8), numeral = sign.bytes ++ ds ∧ ds ≠ [] ∧
    (∀ b ∈ ds, isDigit b = true) ∧ n = intOfDigits sign.isMinus ds ∧ -2 ^ 31 ≤ n ∧ n < 2 ^ 31

/-- The line `insert <id> <username> <email>`. -/
def IsInsertOf (cmd : List UInt8) (id : ℤ) (username email : List UInt8) : Prop :=
  ∃ gap₁ numeral gap₂ gap₃ trail, IsGap gap₁ ∧ IsNumeralOf numeral id ∧ IsGap gap₂ ∧
    IsWord username ∧ IsGap gap₃ ∧ IsWord email ∧ (∀ b ∈ trail, isSpace b = true) ∧
    cmd = bytesOf "insert" ++ (gap₁ ++ (numeral ++ (gap₂ ++ (username ++ (gap₃ ++
      (email ++ trail))))))

/-- The line is a command whose strings fit their columns. -/
def IsCommand (cmd : List UInt8) : Prop :=
  cmd = bytesOf ".exit" ∨ cmd = bytesOf "select" ∨
    ∃ id username email, IsInsertOf cmd id username email ∧ UserInfo.FitColumns username email

lemma IsInsertOf.isInsert {cmd : List UInt8} {id : ℤ} {username email : List UInt8}
    (h : IsInsertOf cmd id username email) : IsInsert cmd := by
  obtain ⟨gap₁, numeral, gap₂, gap₃, trail, -, -, -, -, -, -, -, rfl⟩ := h
  exact List.take_left' rfl

/-- An insertion whose strings fit gives a row. -/
lemma parse_of_fits {mem : Uninit} {cmd : List UInt8} (hcmd : IsInsert cmd)
    (hfit : FitsColumns mem cmd) : ∃ row, parse mem cmd = .ok (some (.insert row), []) ∧
      row.HasFields (fieldsOf mem cmd).1 (fieldsOf mem cmd).2.1 (fieldsOf mem cmd).2.2 := by
  obtain ⟨row, hrow, hfields⟩ :=
    UserInfo.fromString_of_fit (UserInfo.new mem) (readFields_eq mem cmd) hfit
  exact ⟨row, by rw [parse_insert hcmd, hrow, ok_bind], hfields⟩

/-! ## Lines by their words -/

section

variable {gap word rest : List UInt8}

/-- White space ends a word, and so does the end of the line. -/
lemma stops_word (h : ∀ b ∈ gap, isSpace b = true) : Stops (fun b => !isSpace b) gap := by
  intro b hb
  have hspace := h b (List.mem_of_mem_head? hb)
  simp [hspace]

lemma IsGap.stops_word (h : IsGap gap) (rest : List UInt8) :
    Stops (fun b => !isSpace b) (gap ++ rest) := by
  obtain ⟨b, bs, rfl⟩ := List.exists_cons_of_ne_nil h.1
  intro c hc
  cases hc
  simp [h.2 b List.mem_cons_self]

/-- What stands between two words is not empty. -/
lemma isGap_of_stops (hgap : ∀ b ∈ gap, isSpace b = true) (hword : IsWord word)
    (h : Stops (fun b => !isSpace b) (gap ++ (word ++ rest))) : IsGap gap := by
  refine ⟨?_, hgap⟩
  rintro rfl
  obtain ⟨b, bs, rfl⟩ := List.exists_cons_of_ne_nil hword.1
  have hspace : (!isSpace b) = false := h b rfl
  rw [hword.2 b List.mem_cons_self] at hspace
  exact nomatch hspace

lemma IsNumeralOf.isWord {id : ℤ} (h : IsNumeralOf word id) : IsWord word := by
  obtain ⟨sign, ds, rfl, hne, hds, -⟩ := h
  refine ⟨List.append_ne_nil_of_right_ne_nil _ hne, ?_⟩
  intro b hb
  rcases List.mem_append.mp hb with hb | hb
  · cases sign with
    | none => exact absurd hb List.not_mem_nil
    | plus => rw [List.mem_singleton.mp hb]; decide
    | minus => rw [List.mem_singleton.mp hb]; decide
  · exact not_isSpace_of_isDigit (hds b hb)

lemma isWord_insert : IsWord (bytesOf "insert") := ⟨by decide, by decide +kernel⟩

/-- Nothing stands in front of the first word of an insertion. -/
lemma IsInsert.gap_eq_nil {cmd : List UInt8} (hcmd : IsInsert cmd)
    (hgap : ∀ b ∈ gap, isSpace b = true) (h : cmd = gap ++ rest) : gap = [] := by
  cases gap with
  | nil => rfl
  | cons b gap =>
      have hhead : cmd.head? = some 'i'.toUInt8 := by
        rw [← List.take_append_drop 6 cmd, hcmd]
        rfl
      rw [h] at hhead
      cases hhead
      exact absurd (hgap _ List.mem_cons_self) (by decide)

end

/-- **The lines in the right form**, by their words: `insert`, a numeral, and two more. -/
theorem isInsertOf_iff_words {cmd : List UInt8} (hcmd : IsInsert cmd) {id : ℤ}
    {username email : List UInt8} : IsInsertOf cmd id username email ↔
      ∃ numeral, words cmd = [bytesOf "insert", numeral, username, email] ∧
        IsNumeralOf numeral id := by
  constructor
  · rintro ⟨gap₁, numeral, gap₂, gap₃, trail, hgap₁, hid, hgap₂, husername, hgap₃, hemail, htrail,
      rfl⟩
    refine ⟨numeral, ?_, hid⟩
    rw [words_word_append isWord_insert (hgap₁.stops_word _), words_spaces_append hgap₁.2,
      words_word_append hid.isWord (hgap₂.stops_word _), words_spaces_append hgap₂.2,
      words_word_append husername (hgap₃.stops_word _), words_spaces_append hgap₃.2,
      words_word_append hemail (stops_word htrail), words_of_spaces htrail]
  · rintro ⟨numeral, hwords, hid⟩
    obtain ⟨gap₀, rest₀, h₀, hgap₀, -, hstops₀, hwords₀⟩ := words_eq_cons hwords
    obtain ⟨gap₁, rest₁, rfl, hgap₁, hnumeral, hstops₁, hwords₁⟩ := words_eq_cons hwords₀
    obtain ⟨gap₂, rest₂, rfl, hgap₂, husername, hstops₂, hwords₂⟩ := words_eq_cons hwords₁
    obtain ⟨gap₃, trail, rfl, hgap₃, hemail, -, hwords₃⟩ := words_eq_cons hwords₂
    obtain rfl := hcmd.gap_eq_nil hgap₀ h₀
    exact ⟨gap₁, numeral, gap₂, gap₃, trail, isGap_of_stops hgap₁ hnumeral hstops₀, hid,
      isGap_of_stops hgap₂ husername hstops₁, husername, isGap_of_stops hgap₃ hemail hstops₂,
      hemail, words_eq_nil hwords₃, h₀⟩

/-! ## What the extractions read -/

/-- The number and the strings of an insertion, by the words behind its sixth byte. -/
def lineFields (mem : Uninit) (cmd : List UInt8) : ℤ × List UInt8 × List UInt8 :=
  let (id, more) := intOfWords mem.field1.toInt (words (cmd.drop 6))
  (id, more.headD [], more.tail.headD [])

/-- **What is read of a line** is up to its words. -/
theorem fieldsOf_eq (mem : Uninit) (cmd : List UInt8) : fieldsOf mem cmd = lineFields mem cmd := by
  obtain ⟨hid, hmore, hends⟩ := @readInt_words (ofString (cmd.drop 6)) nofun mem.field1.toInt
  set s₁ := (readInt (ofString (cmd.drop 6)) mem.field1.toInt).2 with hs₁
  obtain ⟨husername, hmore₂, hends₂⟩ := readString_words hends []
  set s₂ := (readString s₁ []).2 with hs₂
  obtain ⟨hemail, -, -⟩ := readString_words hends₂ []
  have hread : fieldsOf mem cmd
      = ((readInt (ofString (cmd.drop 6)) mem.field1.toInt).1, (readString s₁ []).1,
        (readString s₂ []).1) := rfl
  rw [hread, hid, husername, hemail, hmore₂, hmore]
  rfl

/-- A numeral is taken as it is. -/
lemma IsNumeralOf.intOfWords {numeral : List UInt8} {id : ℤ} (h : IsNumeralOf numeral id) (old : ℤ)
    (more : List (List UInt8)) : intOfWords old (numeral :: more) = (id, more) := by
  obtain ⟨sign, ds, rfl, hne, hds, rfl, hlow, hhigh⟩ := h
  have hsign := @splitSign_of_digits sign ds [] hne hds
  have htake : ds.takeWhile isDigit = ds := List.takeWhile_eq_self_iff.mpr hds
  have hdrop : ds.dropWhile isDigit = [] := List.dropWhile_eq_nil_iff.mpr hds
  rw [List.append_nil] at hsign
  rw [Istream.intOfWords, hsign]
  dsimp only
  rw [htake, hdrop, if_pos ⟨hne, hlow, hhigh⟩, if_pos rfl]

lemma IsInsert.words_drop {cmd : List UInt8} (hcmd : IsInsert cmd) {more : List (List UInt8)}
    (h : words cmd = bytesOf "insert" :: more) : words (cmd.drop 6) = more := by
  obtain ⟨gap, rest, hline, hgap, -, -, hwords⟩ := words_eq_cons h
  obtain rfl := hcmd.gap_eq_nil hgap hline
  have hdrop : (bytesOf "insert" ++ rest).drop 6 = rest := List.drop_left' rfl
  rw [hline, List.nil_append, hdrop, hwords]

/-- **A line in the right form is read as what it says.** -/
theorem IsInsertOf.fieldsOf_eq {cmd : List UInt8} {id : ℤ} {username email : List UInt8}
    (h : IsInsertOf cmd id username email) (mem : Uninit) :
    fieldsOf mem cmd = (id, username, email) := by
  obtain ⟨numeral, hwords, hid⟩ := (isInsertOf_iff_words h.isInsert).mp h
  rw [DbToy.fieldsOf_eq, lineFields, h.isInsert.words_drop hwords, hid.intOfWords]
  rfl

end DbToy
