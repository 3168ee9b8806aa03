import KanaKanji.Text.Reader

/-!
# Blanks, line ends and comments of a TOML document

What stands between the parts of a document. A line ends with a line feed, with or without a
carriage return before it; a carriage return has no other place.
-/

set_option autoImplicit false

namespace KanaKanji.Toml

open Reader

/-- A space or a tab. -/
def isBlank (c : Char) : Bool := c == ' ' || c == '\t'

/-- Whether a character may stand in a comment or between single quotes: a tab or anything that is
no control of ASCII. -/
def isPlain (c : Char) : Bool := c == '\t' || (0x20 ≤ c.toNat && c.toNat != 0x7F)

/-- Spaces and tabs. -/
def blanks : Reader Unit := do
  let _ ← takeWhile isBlank

/-- The end of a line. -/
def lineEnd : Reader Unit := char '\n' <|> chars ['\r', '\n']

/-- A comment, up to the end of its line. -/
def comment : Reader Unit := do
  char '#'
  let _ ← takeWhile isPlain

/-- What may stand around the items of an array: blanks, line ends, and comments with the ends of
their lines. -/
def gap : Reader Unit := do
  let _ ← many ((do let _ ← takeWhile1 isBlank) <|> lineEnd <|> do
    comment
    lineEnd)

end KanaKanji.Toml
