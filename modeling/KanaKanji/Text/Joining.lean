import KanaKanji.Text.CodePoints

/-!
# Letters that join

The classes of letters that are written as one shape: lam and alef of the Arabic script, consonants
below consonants in Khmer, pairs of consonants in Tifinagh and contour tones in Lisu, and the
characters that may stand between such letters.
-/

set_option autoImplicit false

namespace KanaKanji.Joining

/-- The forms of alef. -/
def alefs : CodePoints :=
  [(0x622, 0x623), (0x625, 0x625), (0x627, 0x627), (0x671, 0x673), (0x675, 0x675), (0x773, 0x774),
   (0x870, 0x882)]

/-- The forms of lam. -/
def lams : CodePoints :=
  [(0x644, 0x644), (0x6B5, 0x6B8), (0x76A, 0x76A), (0x8A6, 0x8A6), (0x8C7, 0x8C7)]

/-- Characters without width that keep the letters around them from joining: spacing marks, vowels
of other scripts, format characters that stop joining, and code points that are not assigned. -/
def separators : CodePoints :=
  [(0x605, 0x605), (0x890, 0x891), (0x8E2, 0x8E2), (0x9BE, 0x9BE), (0x9D7, 0x9D7), (0xB3E, 0xB3E),
   (0xB57, 0xB57), (0xBBE, 0xBBE), (0xBD7, 0xBD7), (0xCC0, 0xCC0), (0xCC2, 0xCC2), (0xCC7, 0xCC8),
   (0xCCA, 0xCCB), (0xCD5, 0xCD6), (0xD3E, 0xD3E), (0xD4E, 0xD4E), (0xD57, 0xD57), (0xDCF, 0xDCF),
   (0xDDF, 0xDDF), (0x1160, 0x11FF), (0x1715, 0x1715), (0x1734, 0x1734), (0x180E, 0x180E),
   (0x1B35, 0x1B35), (0x1B3B, 0x1B3B), (0x1B3D, 0x1B3D), (0x1B43, 0x1B44), (0x1BAA, 0x1BAA),
   (0x1BF2, 0x1BF3), (0x200C, 0x200D), (0x2065, 0x2069), (0x302E, 0x302F), (0x3164, 0x3164),
   (0xA8FA, 0xA8FA), (0xA953, 0xA953), (0xA9C0, 0xA9C0), (0xD7B0, 0xD7C6), (0xD7CB, 0xD7FB),
   (0xFFA0, 0xFFA0), (0xFFF0, 0xFFF8), (0x111C0, 0x111C0), (0x111C2, 0x111C3), (0x11235, 0x11235),
   (0x1133E, 0x1133E), (0x1134D, 0x1134D), (0x11357, 0x11357), (0x113B8, 0x113B8),
   (0x113C2, 0x113C2), (0x113C5, 0x113C5), (0x113C7, 0x113C9), (0x113CF, 0x113CF),
   (0x113D1, 0x113D1), (0x114B0, 0x114B0), (0x114BD, 0x114BD), (0x115AF, 0x115AF),
   (0x116B6, 0x116B6), (0x11930, 0x11930), (0x1193D, 0x1193D), (0x1193F, 0x1193F),
   (0x11941, 0x11941), (0x11A3A, 0x11A3A), (0x11A84, 0x11A89), (0x11D46, 0x11D46),
   (0x11F02, 0x11F02), (0x11F41, 0x11F41), (0x16FF0, 0x16FF1), (0x1D165, 0x1D166),
   (0x1D16D, 0x1D172), (0xE0000, 0xE0000), (0xE0002, 0xE001F), (0xE0080, 0xE00FF),
   (0xE01F0, 0xE0FFF)]

/-- The letters of Khmer that may be written below another. -/
def subscripts : CodePoints :=
  [(0x1780, 0x1782), (0x1784, 0x1787), (0x1789, 0x178C), (0x178E, 0x1793), (0x1795, 0x1798),
   (0x179B, 0x179D), (0x17A0, 0x17A0), (0x17A2, 0x17A2), (0x17A7, 0x17A7), (0x17AB, 0x17AC),
   (0x17AF, 0x17AF)]

/-- The consonants of Tifinagh. -/
def tifinaghConsonants : CodePoints := [(0x2D31, 0x2D65), (0x2D6F, 0x2D6F)]

/-- The tones of Lisu that begin a contour. -/
def firstTones : CodePoints := [(0xA4F8, 0xA4FB)]

/-- The tones of Lisu that end a contour. -/
def lastTones : CodePoints := [(0xA4FC, 0xA4FD)]

/-- The orkhon i of Old Turkic. -/
def orkhonI : Char := Char.ofNat 0x10C03

/-- The letter of Old Turkic that joins an orkhon i. -/
def orkhonZ : Char := Char.ofNat 0x10C32

/-- The vowel sign aa of Kirat Rai. -/
def vowelAa : Char := Char.ofNat 0x16D63

/-- The vowel sign e of Kirat Rai. -/
def vowelE : Char := Char.ofNat 0x16D67

/-- The vowel sign ai of Kirat Rai, which is e twice. -/
def vowelAi : Char := Char.ofNat 0x16D68

/-- The vowel sign o of Kirat Rai, which is aa and e. -/
def vowelO : Char := Char.ofNat 0x16D69

/-- Marks that are left out where they cannot be shown, variation selectors above all. -/
def unseenMarks : CodePoints :=
  [(0x34F, 0x34F), (0x17B4, 0x17B5), (0x180B, 0x180D), (0x180F, 0x180F), (0xFE00, 0xFE0F),
   (0xE0100, 0xE01EF)]

end KanaKanji.Joining
