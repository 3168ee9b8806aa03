/-!
# Sets of characters as ranges

A class of characters that is given by a table is written as a list of ranges of code points, in
ascending order and without overlaps.
-/

set_option autoImplicit false

namespace KanaKanji

/-- Ranges of code points, each with its first and its last one. -/
abbrev CodePoints := List (Nat × Nat)

/-- Whether a character lies in one of the ranges. -/
def CodePoints.has (ranges : CodePoints) (c : Char) : Bool :=
  ranges.any fun (first, last) ↦ first ≤ c.toNat && c.toNat ≤ last

theorem CodePoints.has_eq_true_iff {ranges : CodePoints} {c : Char} :
    ranges.has c = true ↔ ∃ r ∈ ranges, r.1 ≤ c.toNat ∧ c.toNat ≤ r.2 := by
  simp [CodePoints.has]

end KanaKanji
