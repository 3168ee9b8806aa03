import KanaKanji.Text.CodePoints

/-!
# Blank characters

The characters that Unicode counts as white space, and text without those at its two ends.

Main statements: `isBlank_of_isWhitespace` (the white space of ASCII is blank) and `trim_eq_self`
(a text without blanks at its ends is left as it is).
-/

set_option autoImplicit false

namespace KanaKanji.Blank

/-- The white space characters of Unicode, as ranges of code points. -/
def ranges : CodePoints :=
  [(0x09, 0x0D), (0x20, 0x20), (0x85, 0x85), (0xA0, 0xA0), (0x1680, 0x1680), (0x2000, 0x200A),
   (0x2028, 0x2029), (0x202F, 0x202F), (0x205F, 0x205F), (0x3000, 0x3000)]

/-- Whether a character is white space. -/
def isBlank (c : Char) : Bool := ranges.has c

theorem isBlank_of_isWhitespace {c : Char} (h : c.isWhitespace) : isBlank c := by
  simp only [Char.isWhitespace, Bool.or_eq_true, decide_eq_true_eq] at h
  rcases h with ((rfl | rfl) | rfl) | rfl <;> rfl

/-- The characters from the first one on that is not blank. -/
def trimStart (cs : List Char) : List Char := cs.dropWhile isBlank

/-- The characters up to the last one that is not blank. -/
def trimEnd (cs : List Char) : List Char := (trimStart cs.reverse).reverse

/-- The characters without blanks at either end. -/
def trim (cs : List Char) : List Char := trimEnd (trimStart cs)

theorem trimStart_eq_self {cs : List Char} (h : ∀ c ∈ cs.head?, isBlank c = false) :
    trimStart cs = cs := by
  cases cs with
  | nil => rfl
  | cons c cs => exact List.dropWhile_cons_of_neg (by simp [h c rfl])

theorem trimEnd_eq_self {cs : List Char} (h : ∀ c ∈ cs.getLast?, isBlank c = false) :
    trimEnd cs = cs := by
  rw [trimEnd, trimStart_eq_self, List.reverse_reverse]
  rwa [List.head?_reverse]

/-- A text that neither begins nor ends with a blank is left as it is. -/
theorem trim_eq_self {cs : List Char} (hfirst : ∀ c ∈ cs.head?, isBlank c = false)
    (hlast : ∀ c ∈ cs.getLast?, isBlank c = false) : trim cs = cs := by
  rw [trim, trimStart_eq_self hfirst, trimEnd_eq_self hlast]

theorem trimEnd_concat {c : Char} (h : isBlank c) (cs : List Char) :
    trimEnd (cs ++ [c]) = trimEnd cs := by
  rw [trimEnd, trimEnd, trimStart, trimStart, List.reverse_concat, List.dropWhile_cons_of_pos h]

/-- A blank at the end does not count. -/
theorem trim_concat {c : Char} (h : isBlank c) (cs : List Char) : trim (cs ++ [c]) = trim cs := by
  have hblank : [c].dropWhile isBlank = [] := List.dropWhile_cons_of_pos h
  rw [trim, trim, trimStart, trimStart, List.dropWhile_append, hblank]
  split
  · next hempty => rw [List.isEmpty_iff.1 hempty]
  · exact trimEnd_concat h _

theorem trimEnd_cons {c : Char} (h : isBlank c = false) (cs : List Char) :
    trimEnd (c :: cs) = c :: trimEnd cs := by
  have hc : [c].dropWhile isBlank = [c] := List.dropWhile_cons_of_neg (by simp [h])
  rw [trimEnd, trimEnd, trimStart, trimStart, List.reverse_cons, List.dropWhile_append, hc]
  split
  · next hempty => simp [List.isEmpty_iff.1 hempty]
  · simp

/-- A text that begins with no blank keeps its first character. -/
theorem trim_cons {c : Char} (h : isBlank c = false) (cs : List Char) :
    trim (c :: cs) = c :: trimEnd cs := by
  rw [trim, trimStart_eq_self (by simp [h]), trimEnd_cons h]

end KanaKanji.Blank
