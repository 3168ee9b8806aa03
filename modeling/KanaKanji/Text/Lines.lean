/-!
# Lines of a text

A line ends with a line feed, and a carriage return right before that line feed belongs to the end
of the line. What stands after the last line feed is a line unless it is empty, and keeps a carriage
return at its end.

Main statement: `lines_append` (the first line is cut off at the first line feed).
-/

set_option autoImplicit false

namespace KanaKanji.Lines

/-- A line without a carriage return at its end. -/
def dropReturn (line : List Char) : List Char :=
  if line.getLast? = some '\r' then line.dropLast else line

/-- The lines that the pieces between line feeds make up. -/
def ofPieces : List (List Char) → List (List Char)
  | [] => []
  | [last] => if last.isEmpty then [] else [last]
  | piece :: rest => dropReturn piece :: ofPieces rest

/-- The lines of a text. -/
def lines (cs : List Char) : List (List Char) := ofPieces (cs.splitOn '\n')

@[simp] theorem lines_nil : lines [] = [] := by
  simp [lines, ofPieces]

theorem ofPieces_cons {piece : List Char} {rest : List (List Char)} (h : rest ≠ []) :
    ofPieces (piece :: rest) = dropReturn piece :: ofPieces rest := by
  cases rest with
  | nil => exact absurd rfl h
  | cons next rest => rfl

/-- The first line is what stands before the first line feed. -/
theorem lines_append {line : List Char} (h : '\n' ∉ line) (rest : List Char) :
    lines (line ++ '\n' :: rest) = dropReturn line :: lines rest := by
  rw [lines, List.splitOn_append_cons_self_of_not_mem h, ofPieces_cons (List.splitOn_ne_nil _ _),
    lines]

theorem dropReturn_append_return (line : List Char) : dropReturn (line ++ ['\r']) = line := by
  simp [dropReturn]

end KanaKanji.Lines
