import Mathlib.Data.Nat.Digits.Defs
import Mathlib.Data.List.TakeWhile
import Mathlib.Logic.Function.Iterate
import Mathlib.Tactic.SplitIfs

/-!
# Formatted input

What `getline` and the extraction operators of an input stream do, in the "C" locale and with the
default flags: they skip white space, and set the flags `eof` and `fail`, after which nothing is
extracted any more.

* `words`: a text, cut at its white space.
* `readString_words`, `readInt_words`: what is extracted, and what is left, by the words of the text.
* `getline_line`, `lineAt_unlines`: the lines of a text are read one after the other.
-/

namespace Istream

/-- The bytes of a text without special characters. -/
def bytesOf (s : String) : List UInt8 := s.toList.map Char.toUInt8

/-- `isspace`. -/
def isSpace (b : UInt8) : Bool := b == ' '.toUInt8 || (9 ≤ b && b ≤ 13)

def isDigit (b : UInt8) : Bool := '0'.toUInt8 ≤ b && b ≤ '9'.toUInt8

def newline : UInt8 := 10

/-! ## Streams -/

/-- A stream over a string: what has not been read yet, and the two flags. -/
structure Stream where
  rest : List UInt8
  eof : Bool
  fail : Bool

/-- `std::stringstream(str)`. -/
def ofString (str : List UInt8) : Stream := ⟨str, false, false⟩

/-- The guard of every extraction: none if there is nothing to extract. -/
def sentry (s : Stream) : Option (List UInt8) :=
  if s.eof = true ∨ s.fail = true then none
  else
    match s.rest.dropWhile isSpace with
    | [] => none
    | b :: bs => some (b :: bs)

/-- The stream after an extraction that failed at the guard. -/
def spent (s : Stream) : Stream :=
  if s.eof = true ∨ s.fail = true then { s with fail := true } else ⟨[], true, true⟩

/-- `>>` into a string that holds `old`: a word. -/
def readString (s : Stream) (old : List UInt8) : List UInt8 × Stream :=
  match sentry s with
  | none => (old, spent s)
  | some body =>
      let rest := body.dropWhile fun b => !isSpace b
      (body.takeWhile fun b => !isSpace b, ⟨rest, rest.isEmpty, false⟩)

/-- A sign in front, if there is one: whether it is a minus, and what is behind it. -/
def splitSign : List UInt8 → Bool × List UInt8
  | [] => (false, [])
  | b :: bs =>
      if b = '-'.toUInt8 then (true, bs)
      else if b = '+'.toUInt8 then (false, bs)
      else (false, b :: bs)

/-- The number that decimal digits stand for. -/
def natOfDigits (ds : List UInt8) : ℕ := ds.foldl (fun n b => 10 * n + (b.toNat - 48)) 0

def intOfDigits (neg : Bool) (ds : List UInt8) : ℤ :=
  if neg = true then -(natOfDigits ds : ℤ) else natOfDigits ds

/-- `>>` into an `int` of 32 bits that holds `old`.  Without digits the value is 0; out of range it
is the nearest `int`; in both cases the stream has failed. -/
def readInt (s : Stream) (old : ℤ) : ℤ × Stream :=
  match sentry s with
  | none => (old, spent s)
  | some body =>
      let (neg, body) := splitSign body
      let ds := body.takeWhile isDigit
      let rest := body.dropWhile isDigit
      if ds = [] then (0, ⟨rest, rest.isEmpty, true⟩)
      else if intOfDigits neg ds < -2 ^ 31 then (-2 ^ 31, ⟨rest, rest.isEmpty, true⟩)
      else if 2 ^ 31 ≤ intOfDigits neg ds then (2 ^ 31 - 1, ⟨rest, rest.isEmpty, true⟩)
      else (intOfDigits neg ds, ⟨rest, rest.isEmpty, false⟩)

/-! ## Runs of characters, and numerals -/

/-- The text ends, or goes on with something else than `p`. -/
def Stops (p : UInt8 → Bool) (rest : List UInt8) : Prop := ∀ b ∈ rest.head?, p b = false

variable {p : UInt8 → Bool}

lemma takeWhile_of_stops {w rest : List UInt8} (hw : ∀ b ∈ w, p b = true) (h : Stops p rest) :
    (w ++ rest).takeWhile p = w := by
  rw [List.takeWhile_append_of_pos hw]
  cases rest with
  | nil => exact List.append_nil w
  | cons b bs => rw [List.takeWhile_cons_of_neg (by simp [h b rfl]), List.append_nil]

lemma dropWhile_of_stops {w rest : List UInt8} (hw : ∀ b ∈ w, p b = true) (h : Stops p rest) :
    (w ++ rest).dropWhile p = rest := by
  rw [List.dropWhile_append_of_pos hw]
  cases rest with
  | nil => rfl
  | cons b bs => rw [List.dropWhile_cons_of_neg (by simp [h b rfl])]

lemma stops_dropWhile (p : UInt8 → Bool) (l : List UInt8) : Stops p (l.dropWhile p) := by
  intro b hb
  induction l with
  | nil => exact nomatch hb
  | cons c l ih =>
      cases hc : p c with
      | true =>
          rw [List.dropWhile_cons_of_pos hc] at hb
          exact ih hb
      | false =>
          rw [List.dropWhile_cons_of_neg (by simp [hc])] at hb
          cases hb
          exact hc

/-- The signs that a numeral may have in front. -/
inductive Sign where
  | none
  | plus
  | minus

def Sign.bytes : Sign → List UInt8
  | .none => []
  | .plus => ['+'.toUInt8]
  | .minus => ['-'.toUInt8]

def Sign.isMinus : Sign → Bool
  | .minus => true
  | _ => false

lemma splitSign_of_digits (sign : Sign) {ds rest : List UInt8} (hne : ds ≠ [])
    (hds : ∀ b ∈ ds, isDigit b = true) :
    splitSign (sign.bytes ++ (ds ++ rest)) = (sign.isMinus, ds ++ rest) := by
  obtain ⟨b, bs, rfl⟩ := List.exists_cons_of_ne_nil hne
  have hb := hds b List.mem_cons_self
  cases sign with
  | none =>
      have hminus : b ≠ '-'.toUInt8 := by rintro rfl; exact absurd hb (by decide)
      have hplus : b ≠ '+'.toUInt8 := by rintro rfl; exact absurd hb (by decide)
      show splitSign (b :: (bs ++ rest)) = _
      rw [splitSign, if_neg hminus, if_neg hplus]
      rfl
  | plus => rfl
  | minus => rfl

lemma not_isSpace_of_isDigit {b : UInt8} (hb : isDigit b = true) : isSpace b = false := by
  have hzero : '0'.toUInt8.toNat = 48 := rfl
  simp only [isDigit, Bool.and_eq_true, decide_eq_true_eq, UInt8.le_iff_toNat_le, hzero] at hb
  have h32 : b ≠ ' '.toUInt8 := by rintro rfl; exact absurd hb.1 (by decide)
  have h13 : ¬b ≤ 13 := by
    rw [UInt8.le_iff_toNat_le]
    have h : (13 : UInt8).toNat = 13 := rfl
    omega
  simp [isSpace, h32, h13]

/-! ## The words of a text -/

/-- What stands between the white space. -/
def words (text : List UInt8) : List (List UInt8) :=
  (text.splitOnP isSpace).filter fun word => !word.isEmpty

/-- A word without white space. -/
def IsWord (word : List UInt8) : Prop := word ≠ [] ∧ ∀ b ∈ word, isSpace b = false

/-- White space cuts a text in two. -/
lemma words_append_cons (front : List UInt8) {b : UInt8} (hb : isSpace b = true)
    (back : List UInt8) : words (front ++ b :: back) = words front ++ words back := by
  rw [words, List.splitOnP_append_cons front back hb, List.filter_append]
  rfl

lemma words_of_isWord {word : List UInt8} (h : IsWord word) : words word = [word] := by
  rw [words, List.splitOnP_eq_singleton h.2]
  simp [h.1]

lemma words_spaces_append : ∀ {gap : List UInt8}, (∀ b ∈ gap, isSpace b = true) →
    ∀ rest : List UInt8, words (gap ++ rest) = words rest
  | [], _, _ => rfl
  | b :: gap, hgap, rest =>
      (words_append_cons [] (hgap b List.mem_cons_self) (gap ++ rest)).trans
        (words_spaces_append (fun c hc => hgap c (List.mem_cons_of_mem b hc)) rest)

lemma words_of_spaces {gap : List UInt8} (hgap : ∀ b ∈ gap, isSpace b = true) : words gap = [] := by
  have h := words_spaces_append hgap []
  rwa [List.append_nil] at h

/-- A word ends in front of white space, or where the text ends. -/
lemma words_word_append {word rest : List UInt8} (h : IsWord word)
    (hrest : Stops (fun b => !isSpace b) rest) : words (word ++ rest) = word :: words rest := by
  cases rest with
  | nil => rw [List.append_nil, words_of_isWord h]; rfl
  | cons b bs =>
      have hb : isSpace b = true := by simpa using hrest b rfl
      have hskip : words (b :: bs) = words bs := words_append_cons [] hb bs
      rw [words_append_cons word hb, words_of_isWord h, hskip]
      rfl

/-- A text is white space, or white space in front of a word that ends somewhere. -/
lemma words_cases (text : List UInt8) : (∀ b ∈ text, isSpace b = true) ∨
    ∃ gap word rest, text = gap ++ (word ++ rest) ∧ (∀ b ∈ gap, isSpace b = true) ∧ IsWord word ∧
      Stops (fun b => !isSpace b) rest ∧ words text = word :: words rest := by
  set gap := text.takeWhile isSpace
  set body := text.dropWhile isSpace with hbody
  have htext : text = gap ++ body := (List.takeWhile_append_dropWhile ..).symm
  have hgap : ∀ b ∈ gap, isSpace b = true := fun b hb => List.mem_takeWhile_imp hb
  cases hcons : body with
  | nil =>
      rw [htext, hcons, List.append_nil]
      exact Or.inl hgap
  | cons b bs =>
      have hb : isSpace b = false :=
        stops_dropWhile isSpace text b (by rw [← hbody, hcons]; rfl)
      set word := body.takeWhile fun b => !isSpace b with hword
      set rest := body.dropWhile fun b => !isSpace b
      have hsplit : body = word ++ rest := (List.takeWhile_append_dropWhile ..).symm
      have hisWord : IsWord word := by
        refine ⟨?_, fun c hc => by simpa using List.mem_takeWhile_imp hc⟩
        rw [hword, hcons, List.takeWhile_cons_of_pos (by rw [hb]; rfl)]
        exact List.cons_ne_nil _ _
      have hrest : Stops (fun b => !isSpace b) rest := stops_dropWhile _ body
      refine Or.inr ⟨gap, word, rest, by rw [← hsplit, ← htext], hgap, hisWord, hrest, ?_⟩
      rw [htext, words_spaces_append hgap, hsplit, words_word_append hisWord hrest]

lemma words_eq_nil {text : List UInt8} (h : words text = []) : ∀ b ∈ text, isSpace b = true := by
  rcases words_cases text with hspaces | ⟨_, _, _, -, -, -, -, hwords⟩
  · exact hspaces
  · exact nomatch h.symm.trans hwords

lemma words_eq_cons {text word : List UInt8} {more : List (List UInt8)}
    (h : words text = word :: more) : ∃ gap rest, text = gap ++ (word ++ rest) ∧
      (∀ b ∈ gap, isSpace b = true) ∧ IsWord word ∧ Stops (fun b => !isSpace b) rest ∧
      words rest = more := by
  rcases words_cases text with hspaces | ⟨gap, word', rest, htext, hgap, hword, hrest, hwords⟩
  · exact nomatch h.symm.trans (words_of_spaces hspaces)
  · cases h.symm.trans hwords
    exact ⟨gap, rest, htext, hgap, hword, hrest, rfl⟩

/-! ## What is extracted -/

namespace Stream

/-- The words that can still be extracted. -/
def words (s : Stream) : List (List UInt8) := if s.fail = true then [] else Istream.words s.rest

/-- `eof` is set where nothing is left. -/
def EndsAtEof (s : Stream) : Prop := s.eof = true → s.rest = []

end Stream

lemma endsAtEof_isEmpty (rest : List UInt8) (fail : Bool) :
    Stream.EndsAtEof ⟨rest, rest.isEmpty, fail⟩ := List.isEmpty_iff.mp

/-- The guard skips the white space in front of the next word. -/
lemma sentry_cases {s : Stream} (hs : s.EndsAtEof) : (s.words = [] ∧ sentry s = none) ∨
    ∃ word rest, sentry s = some (word ++ rest) ∧ IsWord word ∧
      Stops (fun b => !isSpace b) rest ∧ s.words = word :: words rest := by
  by_cases hfail : s.fail = true
  · exact Or.inl ⟨if_pos hfail, if_pos (Or.inr hfail)⟩
  · have hwords : s.words = words s.rest := if_neg hfail
    by_cases heof : s.eof = true
    · rw [hwords, hs heof]
      exact Or.inl ⟨rfl, if_pos (Or.inl heof)⟩
    · rw [hwords, sentry, if_neg (not_or.mpr ⟨heof, hfail⟩)]
      rcases words_cases s.rest with hspaces | ⟨gap, word, rest, hrest, hgap, hword, hstops, hcons⟩
      · rw [List.dropWhile_eq_nil_iff.mpr hspaces]
        exact Or.inl ⟨words_of_spaces hspaces, rfl⟩
      · refine Or.inr ⟨word, rest, ?_, hword, hstops, hcons⟩
        obtain ⟨b, bs, rfl⟩ := List.exists_cons_of_ne_nil hword.1
        have hstart : Stops isSpace (b :: bs ++ rest) := by
          intro c hc
          cases hc
          exact hword.2 b List.mem_cons_self
        rw [hrest, dropWhile_of_stops hgap hstart]
        rfl

lemma words_spent (s : Stream) : (spent s).words = [] := by
  rw [spent]
  split_ifs <;> rfl

lemma spent_endsAtEof {s : Stream} (hs : s.EndsAtEof) : (spent s).EndsAtEof := by
  rw [spent]
  split_ifs
  · exact hs
  · exact fun _ => rfl

/-- **`>>` into a string** takes the next word, if there is one. -/
theorem readString_words {s : Stream} (hs : s.EndsAtEof) (old : List UInt8) :
    (readString s old).1 = s.words.headD old ∧ (readString s old).2.words = s.words.tail ∧
      (readString s old).2.EndsAtEof := by
  rcases sentry_cases hs with ⟨hwords, hnone⟩ | ⟨word, rest, hsome, hword, hstops, hwords⟩
  · rw [readString, hnone, hwords]
    exact ⟨rfl, words_spent s, spent_endsAtEof hs⟩
  · have hall : ∀ b ∈ word, (!isSpace b) = true := fun b hb => by rw [hword.2 b hb]; rfl
    rw [readString, hsome, hwords]
    dsimp only
    rw [takeWhile_of_stops hall hstops, dropWhile_of_stops hall hstops]
    exact ⟨rfl, rfl, endsAtEof_isEmpty rest false⟩

/-- The `int` that is nearest to a number. -/
def nearestInt (n : ℤ) : ℤ := max (-2 ^ 31) (min n (2 ^ 31 - 1))

/-- What `>>` into an `int` that holds `old` makes of the words in front of it: the number, and the
words that can be extracted afterwards.  It takes the sign and the digits in front of the first word
and leaves the rest of the word; a word without digits counts as 0.  Behind such a word, and behind
a number out of range, nothing can be extracted. -/
def intOfWords (old : ℤ) : List (List UInt8) → ℤ × List (List UInt8)
  | [] => (old, [])
  | word :: more =>
      let (neg, body) := splitSign word
      let ds := body.takeWhile isDigit
      let rest := body.dropWhile isDigit
      let n := intOfDigits neg ds
      if ds ≠ [] ∧ -2 ^ 31 ≤ n ∧ n < 2 ^ 31 then (n, if rest = [] then more else rest :: more)
      else (nearestInt n, [])

lemma splitSign_append {word : List UInt8} (hne : word ≠ []) (rest : List UInt8) :
    splitSign (word ++ rest) = ((splitSign word).1, (splitSign word).2 ++ rest) := by
  obtain ⟨b, bs, rfl⟩ := List.exists_cons_of_ne_nil hne
  rw [List.cons_append, splitSign, splitSign]
  split_ifs <;> rfl

lemma mem_of_mem_splitSign {word : List UInt8} {b : UInt8} (h : b ∈ (splitSign word).2) :
    b ∈ word := by
  cases word with
  | nil => exact h
  | cons c cs =>
      rw [splitSign] at h
      split_ifs at h
      · exact List.mem_cons_of_mem c h
      · exact List.mem_cons_of_mem c h
      · exact h

/-- White space is not a digit. -/
lemma stops_isDigit {rest : List UInt8} (h : Stops (fun b => !isSpace b) rest) :
    Stops isDigit rest := by
  intro b hb
  have hspace : (!isSpace b) = false := h b hb
  cases hdigit : isDigit b with
  | false => rfl
  | true => rw [not_isSpace_of_isDigit hdigit] at hspace; exact hspace

/-- The digits of a word are those of the text that goes on behind it. -/
lemma digits_append {body rest : List UInt8} (hstops : Stops (fun b => !isSpace b) rest) :
    (body ++ rest).takeWhile isDigit = body.takeWhile isDigit ∧
      (body ++ rest).dropWhile isDigit = body.dropWhile isDigit ++ rest := by
  have hds : ∀ b ∈ body.takeWhile isDigit, isDigit b = true := fun b hb => List.mem_takeWhile_imp hb
  have hnext : Stops isDigit (body.dropWhile isDigit ++ rest) := by
    cases hdrop : body.dropWhile isDigit with
    | nil => exact stops_isDigit hstops
    | cons b bs =>
        intro c hc
        cases hc
        exact stops_dropWhile isDigit body b (by rw [hdrop]; rfl)
  have hsplit : body ++ rest = body.takeWhile isDigit ++ (body.dropWhile isDigit ++ rest) := by
    rw [← List.append_assoc, List.takeWhile_append_dropWhile]
  rw [hsplit]
  exact ⟨takeWhile_of_stops hds hnext, dropWhile_of_stops hds hnext⟩

lemma nearestInt_nil (neg : Bool) : nearestInt (intOfDigits neg []) = 0 := by
  cases neg <;> rfl

/-- **`>>` into an `int`** takes the number in front of the next word. -/
theorem readInt_words {s : Stream} (hs : s.EndsAtEof) (old : ℤ) :
    (readInt s old).1 = (intOfWords old s.words).1 ∧
      (readInt s old).2.words = (intOfWords old s.words).2 ∧ (readInt s old).2.EndsAtEof := by
  rcases sentry_cases hs with ⟨hwords, hnone⟩ | ⟨word, rest, hsome, hword, hstops, hwords⟩
  · rw [readInt, hnone, hwords]
    exact ⟨rfl, words_spent s, spent_endsAtEof hs⟩
  · obtain ⟨htake, hdrop⟩ := @digits_append (splitSign word).2 rest hstops
    rw [readInt, hsome, hwords, intOfWords]
    dsimp only
    rw [splitSign_append hword.1]
    dsimp only
    rw [htake, hdrop]
    set ds := (splitSign word).2.takeWhile isDigit
    set left := (splitSign word).2.dropWhile isDigit with hleft
    set n := intOfDigits (splitSign word).1 ds
    by_cases hnone : ds = []
    · rw [if_pos hnone, if_neg fun h => h.1 hnone, show n = intOfDigits _ [] by rw [← hnone],
        nearestInt_nil]
      exact ⟨rfl, rfl, endsAtEof_isEmpty _ true⟩
    · rw [if_neg hnone]
      by_cases hlow : n < -2 ^ 31
      · have hnearest : nearestInt n = -2 ^ 31 := by rw [nearestInt]; omega
        rw [if_pos hlow, if_neg fun h => absurd h.2.1 (not_le.mpr hlow), hnearest]
        exact ⟨rfl, rfl, endsAtEof_isEmpty _ true⟩
      · rw [if_neg hlow]
        by_cases hhigh : 2 ^ 31 ≤ n
        · have hnearest : nearestInt n = 2 ^ 31 - 1 := by rw [nearestInt]; omega
          rw [if_pos hhigh, if_neg fun h => absurd h.2.2 (not_lt.mpr hhigh), hnearest]
          exact ⟨rfl, rfl, endsAtEof_isEmpty _ true⟩
        · rw [if_neg hhigh, if_pos ⟨hnone, not_lt.mp hlow, not_le.mp hhigh⟩]
          refine ⟨rfl, ?_, endsAtEof_isEmpty _ false⟩
          show words (left ++ rest) = _
          split_ifs with hnil
          · rw [hnil]
            rfl
          · refine words_word_append ⟨hnil, fun b hb => hword.2 b (mem_of_mem_splitSign ?_)⟩ hstops
            exact (List.dropWhile_suffix _).subset (hleft ▸ hb)

/-! ## Lines -/

/-- `std::getline(in, line)` into an empty string: the line, and what has not been read yet.  At
the end of the input the line is empty. -/
def getline (input : List UInt8) : List UInt8 × List UInt8 :=
  (input.takeWhile fun b => b != newline, (input.dropWhile fun b => b != newline).drop 1)

lemma getline_nil : getline [] = ([], []) := rfl

lemma getline_line {line : List UInt8} (hline : newline ∉ line) (rest : List UInt8) :
    getline (line ++ newline :: rest) = (line, rest) := by
  have hall : ∀ b ∈ line, (b != newline) = true := fun b hb =>
    bne_iff_ne.mpr fun heq => hline (heq ▸ hb)
  have hstops : Stops (fun b => b != newline) (newline :: rest) := by
    intro b hb
    cases hb
    rfl
  rw [getline, takeWhile_of_stops hall hstops, dropWhile_of_stops hall hstops]
  rfl

/-- The text that is made of the lines. -/
def unlines (lines : List (List UInt8)) : List UInt8 := lines.flatMap (· ++ [newline])

/-- What is left of the input when so many lines have been read. -/
def restAfter (n : ℕ) (input : List UInt8) : List UInt8 :=
  (fun input => (getline input).2)^[n] input

/-- The line that is read when `n` lines have been read before. -/
def lineAt (input : List UInt8) (n : ℕ) : List UInt8 := (getline (restAfter n input)).1

lemma restAfter_succ (n : ℕ) (input : List UInt8) :
    restAfter (n + 1) input = (getline (restAfter n input)).2 :=
  Function.iterate_succ_apply' _ n input

lemma lineAt_succ (input : List UInt8) (n : ℕ) :
    lineAt input (n + 1) = lineAt (getline input).2 n := by
  rw [lineAt, restAfter, Function.iterate_succ_apply]
  rfl

/-- Behind the end of the input every line is empty. -/
lemma lineAt_nil : ∀ n, lineAt [] n = []
  | 0 => rfl
  | n + 1 => by rw [lineAt_succ, getline_nil, lineAt_nil n]

/-- **Lines are read in order.** -/
theorem lineAt_unlines : ∀ {lines : List (List UInt8)}, (∀ line ∈ lines, newline ∉ line) →
    ∀ (rest : List UInt8) {n : ℕ} {line : List UInt8}, lines[n]? = some line →
      lineAt (unlines lines ++ rest) n = line
  | [], _, _, _, _, h => nomatch h
  | line :: lines, hlines, rest, n, line', h => by
      have hunlines : unlines (line :: lines) ++ rest
          = line ++ newline :: (unlines lines ++ rest) := by
        rw [unlines, List.flatMap_cons, List.append_assoc, List.append_assoc]
        rfl
      have hline := getline_line (hlines line List.mem_cons_self) (unlines lines ++ rest)
      rw [hunlines]
      cases n with
      | zero =>
          cases h
          exact congrArg Prod.fst hline
      | succ n =>
          rw [lineAt_succ, hline]
          exact lineAt_unlines (fun l hl => hlines l (List.mem_cons_of_mem _ hl)) rest h

/-! ## Output -/

/-- `std::to_string(n)`. -/
def decimal (n : ℤ) : List UInt8 :=
  let ds := if n = 0 then ['0'.toUInt8]
    else (Nat.digits 10 n.natAbs).reverse.map fun d => UInt8.ofNat (d + 48)
  if n < 0 then '-'.toUInt8 :: ds else ds

end Istream
