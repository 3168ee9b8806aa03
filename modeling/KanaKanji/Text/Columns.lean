import KanaKanji.Text.Columns.Sequel

/-!
# Columns of a terminal

How many columns of a terminal a text takes, and texts padded to so many columns.

Main statement: `width_padTo` (a padded text fills its columns).
-/

set_option autoImplicit false

namespace KanaKanji.Columns

/-! ### Texts -/

/-- The columns with one character more before what has been measured. -/
def extend (c : Char) (measured : Int × Following) : Int × Following :=
  (measured.1 + (step c measured.2).1, (step c measured.2).2)

/-- The columns that characters take, and what they are to a character before them. -/
def measure (cs : List Char) : Int × Following := cs.foldr extend (0, {})

/-- The number of columns that a text takes. -/
def width (s : String) : Nat := (measure s.toList).1.toNat

/-- The number of columns that the widest of the texts takes. -/
def widest (texts : List String) : Nat := (texts.map width).foldl max 0

/-- A text with blanks after it up to so many columns; a text that takes more stays as it is. -/
def padTo (columns : Nat) (s : String) : String :=
  s ++ String.ofList (List.replicate (columns - width s) ' ')

/-- A text with blanks before it up to so many characters. -/
def alignRight (size : Nat) (s : String) : String :=
  String.ofList (List.replicate (size - s.length) ' ') ++ s

/-! ### Blanks after a text -/

theorem owed_measure (cs : List Char) : (measure cs).2.sequel.owed ≤ (measure cs).1 := by
  induction cs with
  | nil => decide
  | cons c cs ih =>
    have h := owed_step c (measure cs).2
    simp only [measure, List.foldr_cons, extend] at ih h ⊢
    omega

theorem measure_nonneg (cs : List Char) : 0 ≤ (measure cs).1 :=
  Int.le_trans (Sequel.owed_nonneg _) (owed_measure cs)

theorem extend_blank (columns : Int) : extend ' ' (columns, {}) = (columns + 1, {}) := rfl

theorem foldr_extend_add (cs : List Char) (columns more : Int) (f : Following) :
    cs.foldr extend (columns + more, f) =
      ((cs.foldr extend (columns, f)).1 + more, (cs.foldr extend (columns, f)).2) := by
  induction cs with
  | nil => rfl
  | cons c cs ih =>
    simp only [List.foldr_cons, ih, extend, Prod.mk.injEq, and_true]
    omega

theorem measure_replicate_blank (count : Nat) :
    measure (List.replicate count ' ') = ((count : Int), {}) := by
  induction count with
  | zero => rfl
  | succ count ih =>
    have h : measure (List.replicate (count + 1) ' ') =
        extend ' ' (measure (List.replicate count ' ')) := rfl
    rw [h, ih, extend_blank]
    simp

theorem measure_append_blanks (cs : List Char) (count : Nat) :
    measure (cs ++ List.replicate count ' ') = ((measure cs).1 + count, (measure cs).2) := by
  have h := measure_replicate_blank count
  unfold measure at h ⊢
  rw [List.foldr_append, h, ← foldr_extend_add, Int.zero_add]

/-- Every blank after a text takes one column. -/
theorem width_append_blanks (s : String) (count : Nat) :
    width (s ++ String.ofList (List.replicate count ' ')) = width s + count := by
  have h := measure_nonneg s.toList
  simp only [width, String.toList_append, String.toList_ofList, measure_append_blanks]
  omega

/-- A padded text takes as many columns as were asked for, or its own if those are more. -/
theorem width_padTo (columns : Nat) (s : String) :
    width (padTo columns s) = max columns (width s) := by
  rw [padTo, width_append_blanks]
  omega

end KanaKanji.Columns
