/-!
# Reading text from left to right

A reader takes something from the front of a text and leaves the rest, or refuses. Readers are put
together with `do`, with `<|>` where the second one is tried on the same text if the first one
refuses, and with `optional` where a refusal is none.

Main statements: `takeWhile_run` (what is taken and what is left make up the text) and `many_run`
(one more round of a repetition).
-/

set_option autoImplicit false

namespace KanaKanji

/-- Takes something from the front of a text, or refuses. -/
abbrev Reader (α : Type) := StateT (List Char) Option α

namespace Reader

variable {α : Type}

/-- Takes one character of a class. -/
def charWhere (p : Char → Bool) : Reader Char := fun
  | c :: rest => if p c then some (c, rest) else none
  | [] => none

/-- Takes one given character. -/
def char (c : Char) : Reader Unit := do
  let _ ← charWhere (· == c)

/-- Takes a given row of characters. -/
def chars : List Char → Reader Unit
  | [] => pure ()
  | c :: cs => do
    char c
    chars cs

/-- Takes all characters of a class that come next. -/
def takeWhile (p : Char → Bool) : Reader (List Char) := fun cs ↦
  some (cs.takeWhile p, cs.dropWhile p)

/-- Takes all characters of a class that come next, at least one. -/
def takeWhile1 (p : Char → Bool) : Reader (List Char) := do
  let c ← charWhere p
  return c :: (← takeWhile p)

/-- Takes exactly so many characters of a class. -/
def exactly (p : Char → Bool) : Nat → Reader (List Char)
  | 0 => return []
  | n + 1 => do
    let c ← charWhere p
    return c :: (← exactly p n)

/-- Takes nothing, and accepts only where a reader would accept. -/
def ahead (r : Reader α) : Reader Unit := fun cs ↦ (r cs).map fun _ ↦ ((), cs)

/-- Takes nothing, and accepts only at the end. -/
def atEnd : Reader Unit := fun cs ↦ if cs.isEmpty then some ((), cs) else none

/-- The characters that a reader takes. -/
def taken (r : Reader α) : Reader (List Char) := fun cs ↦
  (r cs).map fun (_, rest) ↦ (cs.take (cs.length - rest.length), rest)

/-- Only what fulfils a condition. -/
def satisfying (r : Reader α) (condition : α → Bool) : Reader α := do
  let a ← r
  if condition a then return a else failure

/-- Reads again and again, until the reader refuses or takes nothing more. -/
def many (r : Reader α) : Reader (List α) := fun cs ↦
  match r cs with
  | none => some ([], cs)
  | some (a, rest) =>
    if rest.length < cs.length then
      (many r rest).map fun (as, rest) ↦ (a :: as, rest)
    else some ([a], rest)
termination_by cs => cs.length

/-- Reads one or more times, with a separator between each time and the next. -/
def separated1 (r : Reader α) (separator : Reader Unit) : Reader (List α) := do
  let a ← r
  return a :: (← many do
    separator
    r)

/-- Reads any number of times, with a separator between each time and the next. -/
def separated (r : Reader α) (separator : Reader Unit) : Reader (List α) :=
  separated1 r separator <|> pure []

/-- What a reader takes, if that is the whole text. -/
def whole? (r : Reader α) (cs : List Char) : Option α := do
  let (a, rest) ← r cs
  if rest.isEmpty then some a else none

/-- What is taken and what is left make up the text. -/
theorem takeWhile_run (p : Char → Bool) (cs : List Char) :
    ∃ front back, takeWhile p cs = some (front, back) ∧ cs = front ++ back ∧
      (∀ c ∈ front, p c) ∧ ∀ c ∈ back.head?, p c = false := by
  refine ⟨cs.takeWhile p, cs.dropWhile p, rfl, List.takeWhile_append_dropWhile.symm, ?_, ?_⟩
  · intro c hc
    exact List.all_eq_true.1 List.all_takeWhile c hc
  · intro c hc
    have h := List.head?_dropWhile_not p cs
    rw [Option.mem_def.1 hc] at h
    simpa using h

/-- One more round of a repetition that takes something. -/
theorem many_run {r : Reader α} {cs rest : List Char} {a : α} (h : r cs = some (a, rest))
    (hlt : rest.length < cs.length) :
    many r cs = (many r rest).map fun (as, rest) ↦ (a :: as, rest) := by
  rw [many, h]
  simp [hlt]

end Reader

end KanaKanji
