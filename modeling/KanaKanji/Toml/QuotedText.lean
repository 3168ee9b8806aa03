import KanaKanji.Toml.Blanks
import KanaKanji.Toml.Digits

/-!
# Quoted text in a TOML document

Text in double quotes has escapes, text in single quotes has none. In three quotes of either kind a
text may run over several lines: a line end right after the opening quotes is left out, the other
line ends are line feeds, and one or two quotes may stand anywhere in the text, at its end too.
-/

set_option autoImplicit false

namespace KanaKanji.Toml

open Reader

/-! ### Escapes -/

/-- Whether a character may stand by itself between double quotes. -/
def isUnescaped (c : Char) : Bool := isPlain c && c != '"' && c != '\\'

/-- A character by its code point, in exactly so many hexadecimal digits. -/
def codePoint (digits : Nat) : Reader Char := do
  let n := numberOf 16 (← exactly isHexDigit digits)
  if n.isValidChar then return Char.ofNat n else failure

/-- What stands for one character after a backslash. -/
def escape : Reader Char := do
  match ← charWhere fun _ ↦ true with
  | 'b' => return '\x08'
  | 't' => return '\t'
  | 'n' => return '\n'
  | 'f' => return '\x0c'
  | 'r' => return '\r'
  | '"' => return '"'
  | '\\' => return '\\'
  | 'u' => codePoint 4
  | 'U' => codePoint 8
  | _ => failure

/-- An escape with its backslash. -/
def escaped : Reader (List Char) := do
  char '\\'
  return [← escape]

/-! ### One line -/

/-- Text in double quotes on one line. -/
def basicText : Reader String := do
  char '"'
  let pieces ← many (takeWhile1 isUnescaped <|> escaped)
  char '"'
  return String.ofList pieces.flatten

/-- Whether a character may stand between single quotes. -/
def isLiteral (c : Char) : Bool := isPlain c && c != '\''

/-- Text in single quotes on one line. -/
def literalText : Reader String := do
  char '\''
  let content ← takeWhile isLiteral
  char '\''
  return String.ofList content

/-! ### Several lines -/

/-- A line end within a text. -/
def innerLineEnd : Reader (List Char) := do
  lineEnd
  return ['\n']

/-- A backslash at the end of a line: all blanks and line ends up to the next character are left
out. -/
def joinedLine : Reader (List Char) := do
  char '\\'
  blanks
  lineEnd
  let _ ← many ((do let _ ← takeWhile1 isBlank) <|> lineEnd)
  return []

/-- One or two quotes that belong to a text, as what follows them fulfils a condition. -/
def innerQuotes (quote : Char) (follow : Reader Unit) : Reader (List Char) :=
  (do
    chars [quote, quote]
    follow
    return [quote, quote]) <|>
  do
    char quote
    follow
    return [quote]

/-- Text in three quotes, made of the pieces that a reader takes and of quotes between and after
them. -/
def multilineText (quote : Char) (piece : Reader (List Char)) : Reader String := do
  let fence := chars [quote, quote, quote]
  fence
  let _ ← optional lineEnd
  let pieces ← many (piece <|> innerQuotes quote (ahead do
    let _ ← charWhere (· != quote)))
  let last ← optional (innerQuotes quote (ahead fence))
  fence
  return String.ofList (pieces.flatten ++ last.getD [])

/-- Text in three double quotes. -/
def multilineBasicText : Reader String :=
  multilineText '"' (takeWhile1 isUnescaped <|> joinedLine <|> escaped <|> innerLineEnd)

/-- Text in three single quotes. -/
def multilineLiteralText : Reader String :=
  multilineText '\'' (takeWhile1 isLiteral <|> innerLineEnd)

/-- Quoted text of any kind. -/
def quotedText : Reader String :=
  multilineBasicText <|> basicText <|> multilineLiteralText <|> literalText

end KanaKanji.Toml
