import KanaKanji.DataFile
import KanaKanji.Text.Columns
import KanaKanji.Text.Cut

/-!
# What the dictionary tool prints

The listings of the tool, each as its lines. Text is padded to the columns of the widest entry and
numbers are aligned at the right.
-/

set_option autoImplicit false

namespace KanaKanji.Tool

/-- Lines, each with its end. -/
def ofLines (lines : List String) : String := Text.joined (lines.map (· ++ "\n"))

/-- The width of a column with a heading and texts below it. -/
def columnWidth (heading : String) (texts : List String) : Nat :=
  max (Columns.width heading) (Columns.widest texts)

/-- Words as a table. -/
def wordTable (words : List Word) : List String :=
  let width := columnWidth "surface" (words.map Word.surface)
  let row := fun (surface cost leftId rightId : String) ↦
    s!"  {Columns.padTo width surface}  {Columns.alignRight 6 cost}  " ++
      s!"{Columns.alignRight 5 leftId}  {Columns.alignRight 5 rightId}"
  row "surface" "cost" "lid" "rid" ::
    words.map fun w ↦
      row w.surface (toString w.cost.toInt) (toString w.leftId.toNat) (toString w.rightId.toNat)

/-- The directory of a data set as a table. -/
def directoryTable (entries : List DataSet.Entry) : List String :=
  let width := columnWidth "name" (entries.map DataSet.Entry.name)
  let row := fun (name offset size : String) ↦
    s!"  {Columns.padTo width name}  {Columns.alignRight 10 offset}  {Columns.alignRight 10 size}"
  row "name" "offset" "size" ::
    entries.map fun e ↦ row e.name (toString e.offset) (toString e.size)

/-- The words of a reading. -/
def lookupLines (reading : String) (words : List Word) : List String :=
  if words.isEmpty then [s!"{reading}: (not found)"]
  else s!"{reading}: {words.length} entries" :: wordTable words

/-- Readings that a query begins with, and the surfaces of their words. -/
def frontLines (query : String) (findings : List Finding) : List String :=
  if findings.isEmpty then [s!"{query}: (no prefixes)"]
  else
    let width := Columns.widest (findings.map Finding.reading)
    findings.map fun f ↦
      let surfaces := ", ".intercalate (f.words.map Word.surface)
      s!"{Columns.padTo width f.reading}  {surfaces}"

/-- Ranked completions of a text. -/
def completionLines (start : String) (ranked : List (String × Word)) : List String :=
  if ranked.isEmpty then [s!"{start}: (no completions)"]
  else
    let width := Columns.widest (ranked.map (·.1))
    ranked.zipIdx.map fun ((reading, word), i) ↦
      s!"#{Columns.alignRight 2 (toString (i + 1))}: {Columns.padTo width reading}  " ++
        s!"{word.surface} ({word.cost.toInt})"

/-- Keys with the values of their first candidates. -/
def segmentLines (shown : Nat) (segments : List (String × List String)) : List String :=
  let width := Columns.widest (segments.map (·.1))
  segments.map fun (key, values) ↦
    let listed := " / ".intercalate (values.take shown)
    s!"{Columns.padTo width key}  {listed}"

/-- A data file: its size, its directory, and the size of its lexicon if it has one. -/
def infoLines (path : String) (file : DataFile) : List String :=
  [s!"Data set:   {path}", s!"File size:  {file.size} bytes",
    s!"Regions:    {file.entries.length}", ""] ++
  directoryTable file.entries ++
  match file.lexicon with
  | .error _ => []
  | .ok lexicon =>
    ["", s!"Readings:   {lexicon.numReadings}", s!"Entries:    {lexicon.numWords}",
      s!"Trie nodes: {lexicon.trie.numNodes}"]

/-- A number of bytes in units of 1024 with one decimal place; a tie goes to the even neighbour. -/
def kilobytes (bytes : Nat) : String :=
  let whole := bytes * 10 / 1024
  let twice := bytes * 10 % 1024 * 2
  let tenths := if 1024 < twice || (twice = 1024 && whole % 2 = 1) then whole + 1 else whole
  s!"{tenths / 10}.{tenths % 10}"

end KanaKanji.Tool
