import Mathlib
import KanaKanji.Proofs.Lists
import KanaKanji.WordList

/-!
# Word lists read back

A sheet is a word list before it is put down as a text: rows, each with the end of its line. A row
holds a reading with a word, or it is some other line, one that is passed over or holds no word.

Lines are read one by one. What `readInto` makes of a text depends on `parseLine?` of its lines
alone (`reads_readInto`), for `parseLine?` finds no word in the lines that are passed over. A line
feed is taken for the end of a line together with a carriage return before it, so a row may come
back without a carriage return that it had; `parseLine?` does not see the difference
(`parseLine?_dropReturn`).

Main statement: `readInto_written` (a sheet that is put down and read adds its words in order).
-/

set_option autoImplicit false

namespace KanaKanji.WordList

/-! ### Single lines -/

theorem parseLine?_nil : parseLine? [] = none := by
  decide

theorem parseLine?_of_isPassedOver {line : List Char} (h : isPassedOver line) :
    parseLine? line = none := by
  cases line with
  | nil => exact parseLine?_nil
  | cons c rest =>
    obtain rfl : c = '#' := by simpa [isPassedOver] using h
    exact parseLine?_comment rest

/-- A blank other than a tab at the end of a line does not count. -/
theorem parseLine?_concat {c : Char} (hblank : Blank.isBlank c) (htab : c ≠ '\t')
    (line : List Char) : parseLine? (line ++ [c]) = parseLine? line := by
  have hmem : '\t' ∉ [c] := fun hc ↦ htab (List.mem_singleton.mp hc).symm
  obtain ⟨pieces, last, hline, hmore⟩ := Lists.splitOn_append_of_notMem hmem line
  simp only [parseLine?, hline, hmore, List.map_append, List.map_cons, List.map_nil,
    Blank.trim_concat hblank]

theorem parseLine?_dropReturn (line : List Char) :
    parseLine? (Lines.dropReturn line) = parseLine? line := by
  rw [Lines.dropReturn]
  split
  · next hreturn =>
    obtain ⟨front, rfl⟩ := List.getLast?_eq_some_iff.mp hreturn
    rw [List.dropLast_concat, parseLine?_concat (by decide) (by decide)]
  · rfl

/-! ### Reading lines -/

theorem readLine_of_word {line : List Char} {reading : String} {word : Word}
    (h : parseLine? line = some (reading, word)) (draft : Lexicon.Draft) (tally : Tally) :
    readLine (draft, tally) line = (draft.add reading word, tally.countEntry) := by
  have hlooked : ¬ isPassedOver line := fun hpassed ↦ by
    rw [parseLine?_of_isPassedOver hpassed] at h
    cases h
  simp only [readLine, if_neg hlooked, h]

theorem readLine_of_none {line : List Char} (h : parseLine? line = none) (draft : Lexicon.Draft)
    (tally : Tally) : readLine (draft, tally) line = (draft, tally.countSkipped) := by
  simp only [readLine, h, ite_self]

/-- A reading with a word, as a draft keeps it. -/
def addition (entry : String × Word) : String × List Word := (entry.1, [entry.2])

/-- What there is before and after lines are read: the words that they hold are added in order, and
all other lines are skipped. -/
structure Reads (ls : List (List Char)) (before after : Lexicon.Draft × Tally) : Prop where
  additions : after.1.additions.toList =
    before.1.additions.toList ++ (ls.filterMap parseLine?).map addition
  lines : after.2.lines = before.2.lines + ls.length
  entries : after.2.entries = before.2.entries + (ls.filterMap parseLine?).length
  skipped : after.2.skipped = before.2.skipped + ls.countP fun line ↦ (parseLine? line).isNone

namespace Reads

variable {first rest : List (List Char)} {before between after : Lexicon.Draft × Tally}

theorem nil (state : Lexicon.Draft × Tally) : Reads [] state state :=
  ⟨by simp, by simp, by simp, by simp⟩

theorem append (hfirst : Reads first before between) (hrest : Reads rest between after) :
    Reads (first ++ rest) before after where
  additions := by
    rw [hrest.additions, hfirst.additions, List.filterMap_append, List.map_append,
      List.append_assoc]
  lines := by rw [hrest.lines, hfirst.lines, List.length_append, Nat.add_assoc]
  entries := by
    rw [hrest.entries, hfirst.entries, List.filterMap_append, List.length_append, Nat.add_assoc]
  skipped := by rw [hrest.skipped, hfirst.skipped, List.countP_append, Nat.add_assoc]

end Reads

theorem reads_readLine (line : List Char) (state : Lexicon.Draft × Tally) :
    Reads [line] state (readLine state line) := by
  obtain ⟨draft, tally⟩ := state
  cases hline : parseLine? line with
  | none =>
    rw [readLine_of_none hline]
    constructor <;> simp [hline, Tally.countSkipped]
  | some entry =>
    rw [readLine_of_word hline]
    constructor <;> simp [hline, Tally.countEntry, Lexicon.Draft.add, addition]

theorem reads_foldl (lines : List (List Char)) (state : Lexicon.Draft × Tally) :
    Reads lines state (lines.foldl readLine state) := by
  induction lines generalizing state with
  | nil => exact .nil state
  | cons line lines ih => exact (reads_readLine line state).append (ih (readLine state line))

/-- What a text adds to a draft, and its tally, follow from its lines. -/
theorem reads_readInto (draft : Lexicon.Draft) (text : String) :
    Reads (Lines.lines text.toList) (draft, {}) (readInto draft text) :=
  reads_foldl _ _

/-- A line of a text either holds a word or is skipped. -/
theorem entries_add_skipped (draft : Lexicon.Draft) (text : String) :
    (readInto draft text).2.entries + (readInto draft text).2.skipped =
      (readInto draft text).2.lines := by
  obtain ⟨-, hlines, hentries, hskipped⟩ := reads_readInto draft text
  have hparted := List.length_eq_countP_add_countP
    (fun line ↦ (parseLine? line).isSome) (l := Lines.lines text.toList)
  simp only [Bool.not_eq_true, Option.isSome_eq_false_iff, Bool.decide_eq_true] at hparted
  rw [hlines, hentries, hskipped, Nat.zero_add, Nat.zero_add, Nat.zero_add,
    List.length_filterMap_eq_countP, hparted]

/-! ### Sheets -/

/-- A reading and a word that a line can hold. -/
structure Storable (reading : String) (word : Word) : Prop where
  reading_ne : reading ≠ ""
  reading_chars : ∀ c ∈ reading.toList, Script.isHiragana c ∨ c = Script.prolongedSoundMark
  surface_ne : word.surface ≠ ""
  no_tab : '\t' ∉ word.surface.toList
  no_feed : '\n' ∉ word.surface.toList
  first : ∀ c ∈ word.surface.toList.head?, Blank.isBlank c = false
  last : ∀ c ∈ word.surface.toList.getLast?, Blank.isBlank c = false

/-- What a line of a sheet holds. -/
inductive Row where
  | word (reading : String) (word : Word)
  | other (line : List Char)

namespace Row

/-- The line that a row is put down as. -/
def chars : Row → List Char
  | .word reading w => formatLine reading w
  | .other line => line

/-- The reading and the word of a row. -/
def entry? : Row → Option (String × Word)
  | .word reading w => some (reading, w)
  | .other _ => none

/-- A row is a word that a line can hold, or an empty line, a comment, or a line without a word. -/
inductive Fits : Row → Prop
  | word {reading : String} {w : Word} (h : Storable reading w) : Fits (.word reading w)
  | empty : Fits (.other [])
  | comment {rest : List Char} (hfeed : '\n' ∉ rest) : Fits (.other ('#' :: rest))
  | rejected {line : List Char} (hfeed : '\n' ∉ line) (h : parseLine? line = none) :
    Fits (.other line)

end Row

/-- How a line ends: with a line feed, or with a carriage return and a line feed. -/
inductive LineEnd where
  | feed
  | returnFeed

/-- The characters at the end of a line. -/
def LineEnd.chars : LineEnd → List Char
  | feed => ['\n']
  | returnFeed => ['\r', '\n']

/-- The text that a sheet is put down as. -/
def written (sheet : List (Row × LineEnd)) : String :=
  String.ofList (sheet.flatMap fun (row, stop) ↦ row.chars ++ stop.chars)

/-- The readings and words of a sheet, in order. -/
def entriesOf (sheet : List (Row × LineEnd)) : List (String × Word) :=
  sheet.filterMap fun (row, _) ↦ row.entry?

/-! ### Reading a sheet back -/

theorem Storable.isReading {reading : String} {word : Word} (h : Storable reading word) :
    Script.isReading reading := by
  have hempty : reading.isEmpty = false := by simpa using h.reading_ne
  rw [Script.isReading, hempty, Bool.not_false, Bool.true_and, List.all_eq_true]
  intro c hc
  rw [Script.isReadingChar, Bool.or_eq_true, beq_iff_eq]
  exact h.reading_chars c hc

theorem Storable.parseLine?_formatLine {reading : String} {word : Word}
    (h : Storable reading word) : parseLine? (formatLine reading word) = some (reading, word) :=
  WordList.parseLine?_formatLine h.isReading (by simpa using h.surface_ne) h.no_tab
    (Blank.trim_eq_self h.first h.last)

theorem Storable.feed_notMem_formatLine {reading : String} {word : Word}
    (h : Storable reading word) : '\n' ∉ formatLine reading word := by
  have hreading : '\n' ∉ reading.toList := fun hc ↦
    absurd (isReadingChar_of_mem h.isReading hc) (by decide)
  have hnumber {cs : List Char} (hcs : ∀ c ∈ cs, c.isDigit ∨ c = '-') : '\n' ∉ cs := fun hc ↦
    absurd (hcs _ hc) (by decide)
  have hleft := hnumber fun _ ↦ mem_toDigits (n := word.leftId.toNat)
  have hright := hnumber fun _ ↦ mem_toDigits (n := word.rightId.toNat)
  have hcost := hnumber fun _ ↦ mem_toChars (z := word.cost.toInt)
  simp [formatLine, List.intercalate, hreading, hleft, hright, hcost, h.no_feed]

namespace Row.Fits

variable {row : Row}

theorem feed_notMem_chars (h : row.Fits) : '\n' ∉ row.chars := by
  cases h with
  | word h => exact h.feed_notMem_formatLine
  | empty => exact List.not_mem_nil
  | comment hfeed => simpa [chars] using hfeed
  | rejected hfeed _ => exact hfeed

/-- The line of a row holds the word of the row. -/
theorem parseLine?_chars (h : row.Fits) : parseLine? row.chars = row.entry? := by
  cases h with
  | word h => exact h.parseLine?_formatLine
  | empty => exact parseLine?_nil
  | comment _ => exact parseLine?_comment _
  | rejected _ h => exact h

end Row.Fits

/-- A line as it is read where it ends so: a carriage return before a line feed gets lost. -/
def LineEnd.readBack (line : List Char) : LineEnd → List Char
  | feed => Lines.dropReturn line
  | returnFeed => line

theorem LineEnd.lines_append (stop : LineEnd) {line : List Char} (h : '\n' ∉ line)
    (rest : List Char) :
    Lines.lines (line ++ stop.chars ++ rest) = stop.readBack line :: Lines.lines rest := by
  cases stop with
  | feed => rw [chars, List.append_assoc, List.singleton_append, Lines.lines_append h, readBack]
  | returnFeed =>
    have hreturn : '\n' ∉ line ++ ['\r'] := by simpa using h
    have hparts : line ++ returnFeed.chars ++ rest = (line ++ ['\r']) ++ '\n' :: rest := by
      simp [chars]
    rw [hparts, Lines.lines_append hreturn, Lines.dropReturn_append_return, readBack]

theorem LineEnd.parseLine?_readBack (stop : LineEnd) (line : List Char) :
    parseLine? (stop.readBack line) = parseLine? line := by
  cases stop with
  | feed => exact parseLine?_dropReturn line
  | returnFeed => rfl

section Sheet

variable {sheet : List (Row × LineEnd)}

/-- The lines of the text are the rows of the sheet. -/
theorem lines_written (h : ∀ p ∈ sheet, p.1.Fits) :
    Lines.lines (written sheet).toList = sheet.map fun (row, stop) ↦ stop.readBack row.chars := by
  rw [written, String.toList_ofList]
  induction sheet with
  | nil => exact Lines.lines_nil
  | cons entry sheet ih =>
    obtain ⟨hrow, hsheet⟩ := List.forall_mem_cons.mp h
    rw [List.flatMap_cons, entry.2.lines_append hrow.feed_notMem_chars, ih hsheet, List.map_cons]

theorem filterMap_lines_written (h : ∀ p ∈ sheet, p.1.Fits) :
    (Lines.lines (written sheet).toList).filterMap parseLine? = entriesOf sheet := by
  rw [lines_written h, List.filterMap_map, entriesOf]
  refine List.filterMap_congr fun entry hentry ↦ ?_
  exact (entry.2.parseLine?_readBack entry.1.chars).trans (h entry hentry).parseLine?_chars

/-- A sheet that is put down as a text and read adds its words in order. The tally has its lines,
its words, and as skipped all other lines. -/
theorem readInto_written (draft : Lexicon.Draft) (h : ∀ p ∈ sheet, p.1.Fits) :
    (readInto draft (written sheet)).1.additions.toList =
        draft.additions.toList ++ (entriesOf sheet).map addition ∧
      (readInto draft (written sheet)).2 =
        ⟨sheet.length, (entriesOf sheet).length, sheet.length - (entriesOf sheet).length⟩ := by
  obtain ⟨hadditions, hlines, hentries, -⟩ := reads_readInto draft (written sheet)
  rw [filterMap_lines_written h] at hadditions hentries
  rw [lines_written h, List.length_map, Nat.zero_add] at hlines
  rw [Nat.zero_add] at hentries
  have hskipped : (readInto draft (written sheet)).2.skipped =
      sheet.length - (entriesOf sheet).length := by
    have hsum := entries_add_skipped draft (written sheet)
    omega
  exact ⟨hadditions, Tally.ext hlines hentries hskipped⟩

end Sheet

/-- Two words with numbers at the ends of their ranges, and three other lines. The last line loses
its carriage return to the line feed. -/
def mixedSheet : List (Row × LineEnd) :=
  [(.other "# らーめん".toList, .returnFeed),
    (.word "らーめん" ⟨"ラー メン", -32768, 0, 65535⟩, .feed),
    (.other [], .returnFeed),
    (.word "かんじ" ⟨"漢字", 32767, 1, 2⟩, .returnFeed),
    (.other "かな\t1\t65536\t3\t仮名\r".toList, .feed)]

theorem readInto_written_mixedSheet :
    written mixedSheet = "# らーめん\r\nらーめん\t0\t65535\t-32768\tラー メン\n\r\n" ++
      "かんじ\t1\t2\t32767\t漢字\r\nかな\t1\t65536\t3\t仮名\r\n" ∧
    (∀ p ∈ mixedSheet, p.1.Fits) ∧
    (readInto .empty (written mixedSheet)).1.additions.toList =
        [("らーめん", [⟨"ラー メン", -32768, 0, 65535⟩]), ("かんじ", [⟨"漢字", 32767, 1, 2⟩])] ∧
      (readInto .empty (written mixedSheet)).2 = ⟨5, 2, 3⟩ := by
  have hfits : ∀ p ∈ mixedSheet, p.1.Fits := by
    simp only [mixedSheet, List.forall_mem_cons]
    refine ⟨.comment (by decide), .word ?_, .empty, .word ?_, .rejected (by decide) (by decide),
      List.forall_mem_nil _⟩
    all_goals constructor <;> simp <;> decide
  obtain ⟨hadditions, htally⟩ := readInto_written .empty hfits
  exact ⟨by decide, hfits, hadditions, htally⟩

end KanaKanji.WordList
