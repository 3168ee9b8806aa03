import KanaKanji.Toml.Digits

/-!
# Numbers, dates and times in a TOML document

Underscores may stand between two digits of a number. An integer has to fit into 64 bits with a
sign; a positive number with a fraction or an exponent must not round up to infinity as a number of
double precision. Dates have to be days of the calendar, and times moments of a day, where a minute
may have a second numbered 60.
-/

set_option autoImplicit false

namespace KanaKanji.Toml

open Reader

/-! ### Signs and digits -/

/-- A plus or minus sign, as whether it is a minus sign. -/
def sign : Reader Bool := (do char '+'; return false) <|> do char '-'; return true

/-- Decimal digits of a whole number: no zero stands in front of other digits. -/
def wholeDigits : Reader (List Char) :=
  (do
    ahead (charWhere fun c ↦ c.isDigit && c != '0')
    digitRow Char.isDigit) <|> do
    char '0'
    return ['0']

/-! ### Integers -/

/-- Whether an integer has 64 bits with a sign. -/
def isInt64 (n : Int) : Bool := Int64.minValue.toInt ≤ n && n ≤ Int64.maxValue.toInt

/-- A number in decimal digits, with or without a sign. -/
def decimalInteger : Reader Int := do
  let negative := (← optional sign).getD false
  let n : Int := numberOf 10 (← wholeDigits)
  return if negative then -n else n

/-- A number in the digits of a base after the letter for it, without a sign. -/
def basedInteger (letter : Char) (base : Nat) (isDigit : Char → Bool) : Reader Int := do
  chars ['0', letter]
  return numberOf base (← digitRow isDigit)

/-- A whole number in decimal, hexadecimal, octal or binary digits. -/
def integer : Reader Int :=
  satisfying
    (basedInteger 'x' 16 isHexDigit <|>
      basedInteger 'o' 8 (fun c ↦ '0' ≤ c && c ≤ '7') <|>
      basedInteger 'b' 2 (fun c ↦ c == '0' || c == '1') <|>
      decimalInteger)
    isInt64

/-! ### Numbers of double precision -/

/-- A number with a fraction or an exponent: its sign, the digits without the point as a number, and
the power of ten that this number is multiplied with. -/
structure Scientific where
  negative : Bool
  digits : Nat
  exponent : Int

/-- The least number that rounds to infinity as a number of double precision: the middle between the
greatest one, which is the difference of the powers 1024 and 971 of two, and power 1024. -/
def doubleBound : Nat := 1 <<< 1024 - 1 <<< 970

/-- Whether the number, without its sign, rounds to infinity. The bound has 309 digits, so that only
for numbers with as many digits before the point the two have to be compared. -/
def Scientific.overflows (s : Scientific) : Bool :=
  let places := (Nat.toDigits 10 s.digits).length + s.exponent
  if s.digits = 0 || places < 309 then false
  else if 309 < places then true
  else
    doubleBound * Nat.pow 10 (-s.exponent).toNat ≤ s.digits * Nat.pow 10 s.exponent.toNat

/-- The exponent of a number, with its letter. -/
def exponent : Reader Int := do
  let _ ← charWhere fun c ↦ c == 'e' || c == 'E'
  let negative := (← optional sign).getD false
  let n : Int := numberOf 10 (← digitRow Char.isDigit)
  return if negative then -n else n

/-- The digits of a fraction, with the point. -/
def fraction : Reader (List Char) := do
  char '.'
  digitRow Char.isDigit

/-- A number with a fraction, an exponent or both. -/
def scientific : Reader Scientific := do
  let negative := (← optional sign).getD false
  let whole ← wholeDigits
  (do
    let power ← exponent
    return ⟨negative, numberOf 10 whole, power⟩) <|> do
    let places ← fraction
    let power := (← optional exponent).getD 0
    return ⟨negative, numberOf 10 (whole ++ places), power - places.length⟩

/-- Infinity, or what is no number. -/
def specialFloat : Reader Unit := do
  let _ ← optional sign
  chars ['i', 'n', 'f'] <|> chars ['n', 'a', 'n']

/-- A number of double precision, as it is written. -/
def float : Reader String :=
  String.ofList <$> taken
    ((do let _ ← satisfying scientific fun s ↦ s.negative || !s.overflows) <|> specialFloat)

/-! ### Dates and times -/

/-- A number in exactly so many digits, within bounds. -/
def numberWithin (digits first last : Nat) : Reader Nat :=
  satisfying (numberOf 10 <$> exactly Char.isDigit digits) fun n ↦ first ≤ n && n ≤ last

/-- The number of days of a month. -/
def daysOf (year month : Nat) : Nat :=
  if month = 2 then
    if year % 4 = 0 && (year % 100 != 0 || year % 400 = 0) then 29 else 28
  else if month ∈ [4, 6, 9, 11] then 30
  else 31

/-- A day of the calendar. -/
def date : Reader Unit := do
  let year ← numberWithin 4 0 9999
  char '-'
  let month ← numberWithin 2 1 12
  char '-'
  let _ ← numberWithin 2 1 (daysOf year month)

/-- Hours and minutes. -/
def hourAndMinute : Reader Unit := do
  let _ ← numberWithin 2 0 23
  char ':'
  let _ ← numberWithin 2 0 59

/-- A time of the day. -/
def time : Reader Unit := do
  hourAndMinute
  char ':'
  let _ ← numberWithin 2 0 60
  let _ ← optional do
    char '.'
    takeWhile1 Char.isDigit

/-- The distance of a time from universal time. -/
def offset : Reader Unit :=
  (do let _ ← charWhere fun c ↦ c == 'Z' || c == 'z') <|> do
    let _ ← sign
    hourAndMinute

/-- A date, a time or both, as it is written. -/
def dateTime : Reader String :=
  String.ofList <$> taken
    ((do
      date
      let _ ← optional do
        let _ ← charWhere fun c ↦ c == 'T' || c == 't' || c == ' '
        time
        optional offset) <|> time)

end KanaKanji.Toml
