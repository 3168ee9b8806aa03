import KanaKanji.Toml.Number
import KanaKanji.Toml.QuotedText
import KanaKanji.Toml.Value

/-!
# TOML documents

A document is a row of lines. A line may hold the header of a table, in single or in double
brackets, or a key with a value, and may end with a comment. The value goes into the table of the
last header before it, or into the top-level table.

Arrays and inline tables may be nested 79 deep, and a dotted key may have 79 parts.
-/

set_option autoImplicit false

namespace KanaKanji.Toml

open Reader

/-! ### Keys -/

/-- The depth at which arrays and inline tables, and the number of parts at which dotted keys are
refused. -/
def depthLimit : Nat := 80

/-- Whether a character may stand in a key without quotes. -/
def isBare (c : Char) : Bool := c.isAlphanum || c == '_' || c == '-'

/-- One part of a dotted key. -/
def keyPart : Reader String :=
  basicText <|> literalText <|> (String.ofList <$> takeWhile1 isBare)

/-- A key, dotted or not, with blanks around its parts. -/
def key : Reader (List String) :=
  satisfying
    (separated1 (do
      blanks
      let part ← keyPart
      blanks
      return part) (char '.'))
    fun parts ↦ parts.length < depthLimit

/-! ### Values -/

/-- A value that contains no other values. -/
def scalar : Reader Value :=
  (.text <$> quotedText) <|>
  (.dateTime <$> dateTime) <|>
  (.float <$> float) <|>
  (.integer <$> integer) <|>
  (do chars ['t', 'r', 'u', 'e']; return .boolean true) <|>
  (do chars ['f', 'a', 'l', 's', 'e']; return .boolean false)

/-- Items in brackets with commas between them; a comma may follow the last one. -/
def array (item : Reader Value) : Reader Value := do
  char '['
  let items ← separated (do
    gap
    let value ← item
    gap
    return value) (char ',')
  if !items.isEmpty then
    let _ ← optional (char ',')
  gap
  char ']'
  return .array items

/-- A key and its value, with blanks around the value. -/
def pair (item : Reader Value) : Reader (List String × Value) := do
  let path ← key
  char '='
  blanks
  let value ← item
  blanks
  return (path, value)

/-- Keys and values in braces with commas between them. -/
def inlineTable (item : Reader Value) : Reader Value := do
  char '\x7b'
  let pairs ← separated (pair item) (char ',')
  blanks
  char '\x7d'
  match Entries.ofPairs? pairs with
  | some entries => return .table .inline entries
  | none => failure

/-- A value with so many arrays and inline tables within each other. -/
def value : (depth : Nat) → Reader Value
  | 0 => scalar
  | depth + 1 => array (value depth) <|> inlineTable (value depth) <|> scalar

/-! ### Lines -/

/-- What a line holds. -/
inductive Line
  | tableHeader (path : List String)
  | arrayHeader (path : List String)
  | pair (path : List String) (value : Value)
  | nothing
  deriving Repr

/-- A header in double brackets. -/
def arrayHeader : Reader Line := do
  chars ['[', '[']
  let path ← key
  chars [']', ']']
  return .arrayHeader path

/-- A header in single brackets. -/
def tableHeader : Reader Line := do
  char '['
  let path ← key
  char ']'
  return .tableHeader path

/-- A key and its value on a line. -/
def pairLine : Reader Line := do
  let (path, value) ← pair (value (depthLimit - 1))
  return .pair path value

/-- A line without its end. -/
def line : Reader Line := do
  blanks
  let content ← arrayHeader <|> tableHeader <|> pairLine <|> pure .nothing
  blanks
  let _ ← optional comment
  return content

/-- The lines of a document; a byte order mark may stand in front. -/
def lines : Reader (List Line) := do
  let _ ← optional (char '\uFEFF')
  let ended ← many do
    let content ← line
    lineEnd
    return content
  return ended ++ [← line]

/-! ### Documents -/

/-- The top-level table of a document under construction, and the path of its last header. -/
structure Draft where
  entries : Entries := []
  path : List String := []

/-- Enters what a line holds. -/
def Draft.enter? (draft : Draft) : Line → Option Draft
  | .tableHeader path => (draft.entries.openTable? path).map (⟨·, path⟩)
  | .arrayHeader path => (draft.entries.openArray? path).map (⟨·, path⟩)
  | .pair path value =>
    (draft.entries.changeAt? (Entries.insert? value path true) draft.path).map (⟨·, draft.path⟩)
  | .nothing => some draft

/-- The top-level table that lines make up. -/
def ofLines? (lines : List Line) : Option Entries :=
  (lines.foldlM Draft.enter? {}).map (·.entries)

/-- The top-level table of a document. -/
def parse? (text : String) : Option Entries := (whole? lines text.toList).bind ofLines?

end KanaKanji.Toml
