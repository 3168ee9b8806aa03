import KanaKanji.Lexicon.Draft
import KanaKanji.Text.Blank
import KanaKanji.Text.Decimal
import KanaKanji.Text.Lines
import KanaKanji.Text.Script

/-!
# Word lists

A word list is a text with one word a line: reading, id of the left and of the right context, cost
and surface, with a tab between them. Blanks around a field do not count, and fields after the fifth
are not looked at. Empty lines, comments (lines that begin with `#`) and lines that hold no word are
skipped. `readInto` reads the lines one by one and counts them.

Main statements: `parseLine?_formatLine` (a word reads back from its line) and `parseLine?_comment`.
-/

set_option autoImplicit false

namespace KanaKanji.WordList

/-! ### Lines -/

/-- The line that holds a reading and a word. -/
def formatLine (reading : String) (word : Word) : List Char :=
  ['\t'].intercalate
    [reading.toList, Nat.toDigits 10 word.leftId.toNat, Nat.toDigits 10 word.rightId.toNat,
      Decimal.toChars word.cost.toInt, word.surface.toList]

/-- The reading and the word that five fields hold. -/
def parseFields? (reading leftId rightId cost surface : List Char) : Option (String × Word) :=
  if Script.isReading (String.ofList reading) && !surface.isEmpty then do
    let leftId ← Decimal.uint16? leftId
    let rightId ← Decimal.uint16? rightId
    let cost ← Decimal.int16? cost
    return (String.ofList reading, ⟨String.ofList surface, cost, leftId, rightId⟩)
  else none

/-- The reading and the word that a line holds. -/
def parseLine? (line : List Char) : Option (String × Word) :=
  match (line.splitOn '\t').map Blank.trim with
  | reading :: leftId :: rightId :: cost :: surface :: _ =>
    parseFields? reading leftId rightId cost surface
  | _ => none

/-! ### Lists -/

/-- How many lines of a word list were read, how many of them held a word and how many were
skipped. -/
@[ext] structure Tally where
  lines : Nat := 0
  entries : Nat := 0
  skipped : Nat := 0
  deriving DecidableEq, Repr

namespace Tally

/-- The tally after one more line that held a word. -/
def countEntry (t : Tally) : Tally :=
  { t with lines := t.lines + 1, entries := t.entries + 1 }

/-- The tally after one more line that was skipped. -/
def countSkipped (t : Tally) : Tally :=
  { t with lines := t.lines + 1, skipped := t.skipped + 1 }

end Tally

/-- Whether a line is passed over before its fields are looked at. -/
def isPassedOver (line : List Char) : Bool := line.isEmpty || line.head? == some '#'

/-- The draft and the tally after one more line. -/
def readLine (state : Lexicon.Draft × Tally) (line : List Char) : Lexicon.Draft × Tally :=
  let (draft, tally) := state
  if isPassedOver line then (draft, tally.countSkipped)
  else
    match parseLine? line with
    | some (reading, word) => (draft.add reading word, tally.countEntry)
    | none => (draft, tally.countSkipped)

/-- The draft with the words of a list added in order, and the tally of the list. -/
def readInto (draft : Lexicon.Draft) (text : String) : Lexicon.Draft × Tally :=
  (Lines.lines text.toList).foldl readLine (draft, {})

/-- The draft with the words of a list added in order. -/
def addTo (draft : Lexicon.Draft) (text : String) : Lexicon.Draft := (readInto draft text).1

/-- The tally of a word list. -/
def tally (text : String) : Tally := (readInto .empty text).2

/-! ### Reading back a line -/

/-- Hiragana and prolonged sound marks are not blank. -/
theorem isBlank_eq_false_of_isReadingChar {c : Char} (h : Script.isReadingChar c) :
    Blank.isBlank c = false := by
  simp only [Script.isReadingChar, Script.isHiragana, Script.within, Script.prolongedSoundMark,
    Bool.or_eq_true, Bool.and_eq_true, decide_eq_true_eq, beq_iff_eq] at h
  rcases h with ⟨hlow, hhigh⟩ | rfl
  · simp only [Blank.isBlank, Blank.ranges, CodePoints.has, List.any_cons, List.any_nil,
      Bool.or_eq_false_iff, Bool.and_eq_false_iff, decide_eq_false_iff_not, Bool.or_false]
    omega
  · decide

theorem isReadingChar_of_mem {reading : String} (h : Script.isReading reading) {c : Char}
    (hc : c ∈ reading.toList) : Script.isReadingChar c := by
  simp only [Script.isReading, Bool.and_eq_true, List.all_eq_true] at h
  exact h.2 c hc

theorem tab_notMem_reading {reading : String} (h : Script.isReading reading) :
    '\t' ∉ reading.toList := fun hc ↦
  absurd (isReadingChar_of_mem h hc) (by decide)

theorem trim_reading {reading : String} (h : Script.isReading reading) :
    Blank.trim reading.toList = reading.toList :=
  Blank.trim_eq_self
    (fun _ hc ↦ isBlank_eq_false_of_isReadingChar
      (isReadingChar_of_mem h (List.mem_of_mem_head? hc)))
    (fun _ hc ↦ isBlank_eq_false_of_isReadingChar
      (isReadingChar_of_mem h (List.mem_of_mem_getLast? hc)))

/-- What a decimal number is written with is not blank. -/
theorem isBlank_eq_false_of_digit {c : Char} (h : c.isDigit ∨ c = '-') :
    Blank.isBlank c = false := by
  rcases h with h | rfl
  · rw [Char.isDigit_iff_toNat] at h
    simp only [Blank.isBlank, Blank.ranges, CodePoints.has, List.any_cons, List.any_nil,
      Bool.or_eq_false_iff, Bool.and_eq_false_iff, decide_eq_false_iff_not, Bool.or_false]
    have hzero : '0'.toNat = 0x30 := rfl
    have hnine : '9'.toNat = 0x39 := rfl
    omega
  · decide

theorem trim_number {cs : List Char} (h : ∀ c ∈ cs, c.isDigit ∨ c = '-') : Blank.trim cs = cs :=
  Blank.trim_eq_self (fun c hc ↦ isBlank_eq_false_of_digit (h c (List.mem_of_mem_head? hc)))
    (fun c hc ↦ isBlank_eq_false_of_digit (h c (List.mem_of_mem_getLast? hc)))

theorem tab_notMem_number {cs : List Char} (h : ∀ c ∈ cs, c.isDigit ∨ c = '-') : '\t' ∉ cs :=
  fun hc ↦ absurd (h _ hc) (by decide)

theorem mem_toDigits {n : Nat} {c : Char} (h : c ∈ Nat.toDigits 10 n) : c.isDigit ∨ c = '-' :=
  .inl (Nat.isDigit_of_mem_toDigits (by decide) (by decide) h)

theorem mem_toChars {z : Int} {c : Char} (h : c ∈ Decimal.toChars z) : c.isDigit ∨ c = '-' := by
  cases z with
  | ofNat n => exact mem_toDigits h
  | negSucc n =>
    rcases List.mem_cons.1 h with rfl | h
    · exact .inr rfl
    · exact mem_toDigits h

/-- A word reads back from its line. -/
theorem parseLine?_formatLine {reading : String} {word : Word} (hreading : Script.isReading reading)
    (hne : word.surface.toList ≠ []) (htab : '\t' ∉ word.surface.toList)
    (htrim : Blank.trim word.surface.toList = word.surface.toList) :
    parseLine? (formatLine reading word) = some (reading, word) := by
  have hsplit : (formatLine reading word).splitOn '\t' =
      [reading.toList, Nat.toDigits 10 word.leftId.toNat, Nat.toDigits 10 word.rightId.toNat,
        Decimal.toChars word.cost.toInt, word.surface.toList] := by
    refine List.splitOn_intercalate '\t' ?_ (List.cons_ne_nil _ _)
    simp only [List.mem_cons, List.not_mem_nil, or_false]
    rintro field (rfl | rfl | rfl | rfl | rfl)
    · exact tab_notMem_reading hreading
    · exact tab_notMem_number fun _ ↦ mem_toDigits
    · exact tab_notMem_number fun _ ↦ mem_toDigits
    · exact tab_notMem_number fun _ ↦ mem_toChars
    · exact htab
  have hempty : word.surface.toList.isEmpty = false := List.isEmpty_eq_false_iff.2 hne
  rw [parseLine?, hsplit]
  simp only [List.map_cons, List.map_nil, trim_reading hreading, htrim,
    trim_number fun _ ↦ mem_toDigits, trim_number fun _ ↦ mem_toChars]
  simp [parseFields?, hreading, hempty, Decimal.uint16?_toDigits, Decimal.int16?_toChars]

/-- A comment holds no word. -/
theorem parseLine?_comment (rest : List Char) : parseLine? ('#' :: rest) = none := by
  obtain ⟨first, others, hsplit⟩ :=
    List.exists_cons_of_ne_nil (List.splitOn_ne_nil '\t' rest)
  have hline : ('#' :: rest).splitOn '\t' = ('#' :: first) :: others := by
    rw [List.splitOn_cons_eq_if_modifyHead, hsplit]
    rfl
  rw [parseLine?, hline, List.map_cons, Blank.trim_cons (by decide)]
  split
  · next heq =>
    have hnot : Script.isReading (String.ofList ('#' :: Blank.trimEnd first)) = false := by
      simp [Script.isReading, show Script.isReadingChar '#' = false by decide]
    obtain ⟨rfl, _⟩ := List.cons.inj heq
    rw [parseFields?, hnot]
    rfl
  · rfl

end KanaKanji.WordList
