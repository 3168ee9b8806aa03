/-!
# Scripts of Japanese text

Which characters are hiragana, digits or Latin letters, and the maps between hiragana and katakana
and from full-width to ASCII forms. Every map works character by character and leaves what it has
no other form for, so it keeps the number of characters.
-/

set_option autoImplicit false

namespace KanaKanji.Script

/-- Whether a character lies in a closed range of code points. -/
def within (first last : Nat) (c : Char) : Bool := first ≤ c.toNat && c.toNat ≤ last

/-- The character as many code points further on. -/
def shiftUp (distance : Nat) (c : Char) : Char := Char.ofNat (c.toNat + distance)

/-- The character as many code points further back. -/
def shiftDown (distance : Nat) (c : Char) : Char := Char.ofNat (c.toNat - distance)

/-! ### Classes -/

/-- The whole hiragana block. -/
def isHiragana (c : Char) : Bool := within 0x3040 0x309F c

/-- An ASCII or full-width digit. -/
def isNumber (c : Char) : Bool := within 0x30 0x39 c || within 0xFF10 0xFF19 c

/-- An ASCII letter. -/
def isAsciiLetter (c : Char) : Bool := within 0x41 0x5A c || within 0x61 0x7A c

/-- An ASCII or full-width Latin letter. -/
def isAlphabet (c : Char) : Bool :=
  isAsciiLetter c || within 0xFF21 0xFF3A c || within 0xFF41 0xFF5A c

/-- The mark that prolongs the vowel before it, as in らーめん. -/
def prolongedSoundMark : Char := 'ー'

/-- A character that a reading may hold. -/
def isReadingChar (c : Char) : Bool := isHiragana c || c == prolongedSoundMark

/-- A reading is not empty and holds hiragana and prolonged sound marks only. -/
def isReading (s : String) : Bool := !s.isEmpty && s.toList.all isReadingChar

/-! ### Maps -/

/-- The katakana form of a hiragana character; every other character is its own. -/
def toKatakanaChar (c : Char) : Char := if within 0x3041 0x3096 c then shiftUp 0x60 c else c

/-- The hiragana form of a katakana character; every other character is its own. -/
def toHiraganaChar (c : Char) : Char := if within 0x30A1 0x30F6 c then shiftDown 0x60 c else c

/-- The ASCII form of a full-width character; every other character is its own. -/
def toHalfWidthChar (c : Char) : Char := if within 0xFF01 0xFF5E c then shiftDown 0xFEE0 c else c

/-- A text with one character in the place of each of its characters. -/
def mapChars (f : Char → Char) (s : String) : String := String.ofList (s.toList.map f)

@[simp] theorem toList_mapChars (f : Char → Char) (s : String) :
    (mapChars f s).toList = s.toList.map f := by
  simp [mapChars]

/-- A text with its hiragana written in katakana. -/
def toKatakana (s : String) : String := mapChars toKatakanaChar s

/-- A text with its katakana written in hiragana. -/
def toHiragana (s : String) : String := mapChars toHiraganaChar s

/-- A text with its full-width ASCII variants written in ASCII. -/
def toHalfWidth (s : String) : String := mapChars toHalfWidthChar s

end KanaKanji.Script
