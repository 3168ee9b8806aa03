/-!
# Ranking

Ordering a list by a key, where elements with equal keys keep their order, and keeping only the
first element of each kind.
-/

set_option autoImplicit false

namespace KanaKanji.Ranking

variable {α β : Type}

/-- The elements in ascending order of their keys; those with equal keys keep their order. -/
def sortOn [LE β] [DecidableLE β] (key : α → β) (xs : List α) : List α :=
  xs.mergeSort fun a b ↦ decide (key a ≤ key b)

/-- The elements whose key none before them has. -/
def firstOfEach [DecidableEq β] (key : α → β) : List α → List α
  | [] => []
  | a :: rest => a :: (firstOfEach key rest).filter fun b ↦ key b ≠ key a

end KanaKanji.Ranking
