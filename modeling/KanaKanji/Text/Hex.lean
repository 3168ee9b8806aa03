/-!
# Hexadecimal numerals

Numbers in messages, written in base sixteen with lower-case digits after `0x`.
-/

set_option autoImplicit false

namespace KanaKanji.Hex

/-- The hexadecimal digits of a number. -/
def digits (n : Nat) : List Char := Nat.toDigits 16 n

/-- A number in base sixteen. -/
def numeral (n : Nat) : String := "0x" ++ String.ofList (digits n)

/-- A number in base sixteen with zeros in front up to so many digits. -/
def paddedNumeral (width n : Nat) : String :=
  "0x" ++ String.ofList (List.replicate (width - (digits n).length) '0' ++ digits n)

end KanaKanji.Hex
