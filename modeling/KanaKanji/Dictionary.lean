import KanaKanji.Ranking

/-!
# Dictionaries

A dictionary answers five questions about readings: which words a reading has (`lookup`), which
readings begin with a text (`predict`), which readings a text begins with, as they are
(`commonPrefixSearch`) or up to voicing marks and size (`modifierInsensitiveSearch`), and what is
best predicted for a text (`predictRanked`). Any functions will do. The last two have defaults: a
dictionary that knows nothing of modifiers tells kana apart (`Dictionary.withoutModifiers`), and one
that has no ranking of its own merges the words of all predicted readings (`rankFindings`).
-/

set_option autoImplicit false

namespace KanaKanji

/-- A word: its written form, the cost of choosing it and the ids of its left and right context. -/
structure Word where
  surface : String
  cost : Int16
  leftId : UInt16
  rightId : UInt16
  deriving DecidableEq, Repr

/-- A reading that a search found, with its words. -/
structure Finding where
  reading : String
  words : List Word
  deriving DecidableEq, Repr

/-- The words in ascending order of cost, of each surface only the first. -/
def rankWords (words : List Word) : List Word :=
  Ranking.firstOfEach Word.surface (Ranking.sortOn (·.cost.toInt) words)

/-- The words of findings, each with its reading: the cheapest first, of each surface only the
first, and at most `limit` of them. -/
def rankFindings (findings : List Finding) (limit : Nat) : List (String × Word) :=
  let scanned := findings.flatMap fun f ↦ f.words.map (f.reading, ·)
  (Ranking.firstOfEach (·.2.surface) (Ranking.sortOn (·.2.cost.toInt) scanned)).take limit

/-- The answers of a dictionary. What is best predicted for a text is asked for with the greatest
number of answers and the greatest number of readings to look at. -/
structure Dictionary where
  lookup : String → List Word
  predict : String → Nat → List Finding
  commonPrefixSearch : String → List Finding
  modifierInsensitiveSearch : String → List Finding := commonPrefixSearch
  predictRanked : String → Nat → Nat → List (String × Word) := fun start limit scanLimit ↦
    rankFindings (predict start scanLimit) limit

namespace Dictionary

/-- The dictionary that tells kana apart by their modifiers in every search. -/
def withoutModifiers (d : Dictionary) : Dictionary :=
  { d with modifierInsensitiveSearch := d.commonPrefixSearch }

end Dictionary

end KanaKanji
