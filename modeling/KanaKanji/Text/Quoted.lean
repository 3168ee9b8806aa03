import KanaKanji.Text.Hex
import KanaKanji.Text.Printable

/-!
# Quoted text

Text in messages that has to be told apart from what stands around it: in double quotes, with
escapes for quotes, backslashes and all characters that do not show by themselves.
-/

set_option autoImplicit false

namespace KanaKanji.Quoted

/-- A character that does not show by itself, by its code point. -/
def codePointEscape (c : Char) : List Char :=
  ['\\', 'u', '\x7b'] ++ Hex.digits c.toNat ++ ['\x7d']

/-- A character as it stands between quotes. -/
def encodeChar (c : Char) : List Char :=
  match c with
  | '"' => ['\\', '"']
  | '\\' => ['\\', '\\']
  | '\n' => ['\\', 'n']
  | '\r' => ['\\', 'r']
  | '\t' => ['\\', 't']
  | '\x00' => ['\\', '0']
  | c => if Printable.showsAlone c then [c] else codePointEscape c

/-- A text in quotes. -/
def encode (s : String) : String :=
  String.ofList ('"' :: s.toList.flatMap encodeChar ++ ['"'])

end KanaKanji.Quoted
