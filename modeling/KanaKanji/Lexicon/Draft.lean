import KanaKanji.Dictionary

/-!
# Lexicons under construction

A draft collects readings with words for them, in any order. `Draft.readings` gathers the words of
each reading in the order in which they came, the readings in ascending order.
-/

set_option autoImplicit false

namespace KanaKanji.Lexicon

/-- The readings and words collected so far, in the order in which they came. -/
structure Draft where
  additions : Array (String × List Word) := #[]
  deriving DecidableEq, Repr

namespace Draft

/-- The draft without readings. -/
def empty : Draft := {}

/-- The draft of a list of readings with their words. -/
def ofList (entries : List (String × List Word)) : Draft := ⟨entries.toArray⟩

/-- The draft with one more word for a reading. -/
def add (draft : Draft) (reading : String) (word : Word) : Draft :=
  ⟨draft.additions.push (reading, [word])⟩

/-- Merges neighbours that have the same reading. -/
def gather : List (String × List Word) → List (String × List Word)
  | [] => []
  | (reading, words) :: rest =>
    match gather rest with
    | [] => [(reading, words)]
    | (next, more) :: others =>
      if reading = next then (reading, words ++ more) :: others
      else (reading, words) :: (next, more) :: others

/-- The readings in ascending order, each once and with all its words. -/
def readings (draft : Draft) : List (String × List Word) :=
  gather (Ranking.sortOn (·.1) draft.additions.toList)

/-- The number of readings. -/
def numReadings (draft : Draft) : Nat := draft.readings.length

/-- The number of words, those of one surface counted as often as they came. -/
def numWords (draft : Draft) : Nat := (draft.readings.flatMap (·.2)).length

end Draft

end KanaKanji.Lexicon
