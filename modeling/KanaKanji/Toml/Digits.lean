import KanaKanji.Text.Reader

/-!
# Digits of numbers in a TOML document

Digits of bases up to sixteen, the letters in either case, and rows of digits in which single
underscores may stand between two digits.

Main statement: `numberOf_append` (what a digit at the end does to a number).
-/

set_option autoImplicit false

namespace KanaKanji.Toml

open Reader

/-- Whether a character is a hexadecimal digit. -/
def isHexDigit (c : Char) : Bool :=
  c.isDigit || ('a' ≤ c && c ≤ 'f') || ('A' ≤ c && c ≤ 'F')

/-- The value of a hexadecimal digit. -/
def digitValue (c : Char) : Nat :=
  if c.isDigit then c.toNat - '0'.toNat
  else if 'a' ≤ c then c.toNat - 'a'.toNat + 10
  else c.toNat - 'A'.toNat + 10

/-- The number that digits of a base write. -/
def numberOf (base : Nat) (digits : List Char) : Nat :=
  digits.foldl (fun n c ↦ base * n + digitValue c) 0

theorem numberOf_append (base : Nat) (digits : List Char) (c : Char) :
    numberOf base (digits ++ [c]) = base * numberOf base digits + digitValue c := by
  simp [numberOf]

/-- Digits of a class with single underscores between them, without these underscores. -/
def digitRow (isDigit : Char → Bool) : Reader (List Char) := do
  let first ← charWhere isDigit
  let rest ← many (charWhere isDigit <|> do
    char '_'
    charWhere isDigit)
  return first :: rest

end KanaKanji.Toml
