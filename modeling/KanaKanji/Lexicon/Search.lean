import KanaKanji.Lexicon.Areas
import KanaKanji.Louds.Search
import KanaKanji.Text.Modifier

/-!
# Searching a stored lexicon

Opening a lexicon checks that each slot stays within the records and that each record points at the
bytes of a text, so that no later search can fail. A reading is then found by walking the trie, and
its words are those in its slot.
-/

set_option autoImplicit false

namespace KanaKanji

/-- A stored lexicon, ready to be searched: the trie of its readings, a slot for each of them, and
all words. -/
structure Lexicon where
  trie : Louds.Trie
  slots : Array Lexicon.Slot
  words : Array Word

namespace Lexicon

/-! ### Opening -/

/-- So many pieces of a size off the front of the bytes. -/
def pieces (size : Nat) : Nat → List UInt8 → List (List UInt8)
  | 0, _ => []
  | count + 1, bytes => bytes.take size :: pieces size count (bytes.drop size)

/-- The word of a record, whose surface has to be a text within the pool. -/
def Record.word (pool : Array UInt8) (r : Record) : Except Error Word :=
  if pool.size < r.offset + r.size then .error .surfaceOutOfBounds
  else
    match Utf8.decode? (pool.extract r.offset (r.offset + r.size)).toList with
    | none => .error .surfaceNotText
    | some surface => .ok ⟨surface, r.cost, r.leftId, r.rightId⟩

/-- The lexicon in four areas. -/
def ofAreas (areas : Areas) : Except Error Lexicon := do
  let trie ← (Louds.Trie.ofBytes areas.trie).mapError .trie
  let indexLength := areas.index.length
  if indexLength ≠ trie.numKeys * slotSize then throw (.indexSize indexLength trie.numKeys)
  if areas.records.length % recordSize ≠ 0 then throw .recordTableSize
  let count := areas.records.length / recordSize
  let slots := (pieces slotSize trie.numKeys areas.index).map Slot.decode
  if slots.any fun slot ↦ count < slot.start + slot.count then throw .slotOutOfBounds
  let pool := areas.pool.toArray
  let words ← (pieces recordSize count areas.records).mapM fun r ↦ (Record.decode r).word pool
  return ⟨trie, slots.toArray, words.toArray⟩

/-- The lexicon in the regions of a data set. -/
def ofBlob (blob : DataSet.Blob) : Except Error Lexicon := do
  let region := fun name ↦ (blob.require name).mapError Error.dataSet
  let trie ← region trieRegion
  let index ← region indexRegion
  let records ← region recordRegion
  let pool ← region poolRegion
  ofAreas ⟨trie, index, records, pool⟩

/-! ### Searches -/

/-- The number of readings. -/
def numReadings (l : Lexicon) : Nat := l.trie.numKeys

/-- The number of words. -/
def numWords (l : Lexicon) : Nat := l.words.size

/-- The words of the reading with a key id, none if there is no such reading. -/
def wordsOf (l : Lexicon) (keyId : Nat) : List Word :=
  match l.slots[keyId]? with
  | none => []
  | some slot => (l.words.extract slot.start (slot.start + slot.count)).toList

/-- The words of the reading that ends at a node, if one does. -/
def wordsAt? (l : Lexicon) (node : Nat) : Option (List Word) := (l.trie.keyId? node).map l.wordsOf

/-- The words of a reading, the cheapest first. -/
def lookup (l : Lexicon) (reading : String) : List Word :=
  ((l.trie.exactMatch? (Utf8.encode reading)).bind l.wordsAt?).getD []

/-- What a search along the trie found. -/
def finding (l : Lexicon) (found : Louds.PredictiveMatch) : Finding :=
  ⟨Utf8.decodeLossy found.key, l.wordsOf found.keyId⟩

/-- All readings in ascending order. -/
def toList (l : Lexicon) : List Finding := (l.trie.predictiveSearch []).map l.finding

/-- The first readings that begin with a text, in ascending order. -/
def predict (l : Lexicon) (start : String) (limit : Nat) : List Finding :=
  ((l.trie.predictiveSearch (Utf8.encode start)).take limit).map l.finding

/-- The readings that a text begins with, shortest first. A match that ends within a character is no
reading. -/
def commonPrefixSearch (l : Lexicon) (query : String) : List Finding :=
  let bytes := Utf8.encode query
  (l.trie.commonPrefixSearch bytes).filterMap fun found ↦
    (Utf8.decode? (bytes.take found.length)).map (⟨·, l.wordsOf found.keyId⟩)

/-- The readings at which a walk from a node along the rest of a query ends, where each character
may be any of its variants; `reading` leads to the node. -/
def walkVariants (l : Lexicon) : List Char → (node : Nat) → (reading : List Char) → List Finding
  | [], _, _ => []
  | c :: rest, node, reading =>
    (Modifier.variants c).flatMap fun v ↦
      match l.trie.descend? node (String.utf8EncodeChar v) with
      | none => []
      | some next =>
        let reading := reading ++ [v]
        ((l.wordsAt? next).map (⟨String.ofList reading, ·⟩)).toList ++
          l.walkVariants rest next reading

/-- The rank of a reading among those found for a query: its size, and within one size first the
reading that the query begins with as it is. -/
def variantRank (query : String) (found : Finding) : Nat :=
  2 * Utf8.byteLength found.reading +
    if found.reading.toList.isPrefixOf query.toList then 0 else 1

/-- The readings that a text begins with when modifiers are ignored, shortest first. -/
def modifierInsensitiveSearch (l : Lexicon) (query : String) : List Finding :=
  Ranking.sortOn (variantRank query) (l.walkVariants query.toList Louds.Trie.root [])

/-- The dictionary that answers from the lexicon. -/
def toDictionary (l : Lexicon) : Dictionary where
  lookup := l.lookup
  predict := l.predict
  commonPrefixSearch := l.commonPrefixSearch
  modifierInsensitiveSearch := l.modifierInsensitiveSearch

end Lexicon

end KanaKanji
