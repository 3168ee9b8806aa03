import Std.Data.HashMap
import KanaKanji.DataSet.Blob
import KanaKanji.Lexicon.Draft
import KanaKanji.Louds.Trie

/-!
# The stored form of a lexicon

A stored lexicon has four areas: the trie of its readings, an index with a slot for each key of the
trie, a table of records with one record for each word, and a pool of surfaces. A slot says where
the records of a reading start and how many there are; a record says where in the pool the surface
of a word stands, and holds its cost and context ids. A surface stands in the pool once, however
many words have it.

The slots stand in the order of the key ids. So a draft builds the trie first and opens it, to look
up the id of each reading (`Draft.placeWordLists`).

`Draft.areas` writes the four areas and `Draft.writeTo` adds them as regions to a data set.
-/

set_option autoImplicit false

namespace KanaKanji.Lexicon

/-- Why a lexicon cannot be stored or opened. -/
inductive Error
  | dataSet (cause : DataSet.Error)
  | trie (cause : Louds.Error)
  | indexSize (bytes keys : Nat)
  | recordTableSize
  | slotOutOfBounds
  | surfaceOutOfBounds
  | surfaceNotText
  | emptyReading
  | readingMissing (reading : String)
  | surfaceTooLong (surface : String)
  | poolTooLarge
  | tooManyWords
  deriving DecidableEq, Repr

/-- The message for a lexicon that cannot be stored or opened. -/
def Error.message : Error → String
  | .dataSet cause => s!"data set error: {cause.message}"
  | .trie cause => s!"trie error: {cause.message}"
  | .indexSize bytes keys => s!"corrupt dictionary: index has {bytes} bytes for {keys} keys"
  | .recordTableSize => "corrupt dictionary: entry table size is not a record multiple"
  | .slotOutOfBounds => "corrupt dictionary: index slot points past the entry table"
  | .surfaceOutOfBounds => "corrupt dictionary: surface points past the string pool"
  | .surfaceNotText => "corrupt dictionary: surface is not valid UTF-8"
  | .emptyReading => "parse error: empty reading"
  | .readingMissing reading => s!"corrupt dictionary: reading {reading} missing from trie"
  | .surfaceTooLong surface => s!"parse error: surface too long: {surface}"
  | .poolTooLarge => "parse error: string pool exceeds u32::MAX"
  | .tooManyWords => "parse error: too many entries"

/-- The region of the trie. -/
def trieRegion : String := "dict.louds"

/-- The region of the index. -/
def indexRegion : String := "dict.index"

/-- The region of the records. -/
def recordRegion : String := "dict.entries"

/-- The region of the surfaces. -/
def poolRegion : String := "dict.strings"

/-! ### Slots and records -/

/-- The records of a reading: the number of the first, and how many there are. -/
structure Slot where
  start : Nat
  count : Nat
  deriving DecidableEq, Repr, Inhabited

/-- The size of a slot in bytes. -/
def slotSize : Nat := 8

/-- The written form of a slot. -/
def Slot.encode (slot : Slot) : List UInt8 :=
  LittleEndian.encode 4 slot.start ++ LittleEndian.encode 4 slot.count

/-- A number of so many bytes from a place on. -/
def numberAt (place width : Nat) (bytes : List UInt8) : Nat :=
  LittleEndian.decode ((bytes.drop place).take width)

/-- The slot in eight bytes. -/
def Slot.decode (bytes : List UInt8) : Slot := ⟨numberAt 0 4 bytes, numberAt 4 4 bytes⟩

/-- A word in the table: the place and the size of its surface in the pool, and its numbers. -/
structure Record where
  offset : Nat
  size : Nat
  cost : Int16
  leftId : UInt16
  rightId : UInt16
  deriving DecidableEq, Repr

/-- The size of a record in bytes. -/
def recordSize : Nat := 12

/-- The written form of a record. -/
def Record.encode (r : Record) : List UInt8 :=
  LittleEndian.encode 4 r.offset ++ LittleEndian.encode 2 r.size ++
    LittleEndian.encode 2 r.cost.toUInt16.toNat ++ LittleEndian.encode 2 r.leftId.toNat ++
    LittleEndian.encode 2 r.rightId.toNat

/-- The record in twelve bytes. -/
def Record.decode (bytes : List UInt8) : Record where
  offset := numberAt 0 4 bytes
  size := numberAt 4 2 bytes
  cost := (UInt16.ofNat (numberAt 6 2 bytes)).toInt16
  leftId := UInt16.ofNat (numberAt 8 2 bytes)
  rightId := UInt16.ofNat (numberAt 10 2 bytes)

/-! ### Writing -/

/-- The four areas of a stored lexicon. -/
structure Areas where
  trie : List UInt8
  index : List UInt8
  records : List UInt8
  pool : List UInt8
  deriving DecidableEq, Repr

/-- The pool under construction: where each surface stands, the surfaces in reverse order, and
their size. -/
structure Pool where
  places : Std.HashMap String Nat
  surfaces : List (List UInt8)
  size : Nat

namespace Pool

/-- The pool without surfaces. -/
def empty : Pool := ⟨{}, [], 0⟩

/-- The place of a surface, which is put at the end of the pool if it is new. -/
def place (pool : Pool) (surface : String) : Except Error (Nat × Pool) :=
  match pool.places[surface]? with
  | some place => .ok (place, pool)
  | none =>
    if UInt32.size ≤ pool.size then .error .poolTooLarge
    else
      let bytes := Utf8.encode surface
      .ok (pool.size, {
        places := pool.places.insert surface pool.size
        surfaces := bytes :: pool.surfaces
        size := pool.size + bytes.length })

/-- The bytes of the pool. -/
def toBytes (pool : Pool) : List UInt8 := pool.surfaces.reverse.flatten

end Pool

/-- The greatest size of a surface in bytes. -/
def maxSurfaceSize : Nat := 65535

/-- The records of words, in order, and the pool with their surfaces. -/
def placeWords (pool : Pool) : List Word → Except Error (List Record × Pool)
  | [] => .ok ([], pool)
  | word :: rest => do
    let size := Utf8.byteLength word.surface
    if maxSurfaceSize < size then throw (.surfaceTooLong word.surface)
    let (offset, pool) ← pool.place word.surface
    let (records, pool) ← placeWords pool rest
    return (⟨offset, size, word.cost, word.leftId, word.rightId⟩ :: records, pool)

/-- The slots of lists of words that follow one another in the table. -/
def slotsFrom (start : Nat) : List (List Word) → List Slot
  | [] => []
  | words :: rest => ⟨start, words.length⟩ :: slotsFrom (start + words.length) rest

namespace Draft

/-- The ranked words of readings, put where the ids stand that a trie has for the readings. -/
def placeWordLists (trie : Louds.Trie) (placed : List (Option (List Word))) :
    List (String × List Word) → Except Error (List (Option (List Word)))
  | [] => .ok placed
  | (reading, words) :: rest =>
    match (trie.exactMatch? (Utf8.encode reading)).bind trie.keyId? with
    | none => .error (.readingMissing reading)
    | some id => placeWordLists trie (placed.set id (some (rankWords words))) rest

/-- The areas of the stored lexicon. A reading may not be empty and a surface not too long. -/
def areas (draft : Draft) : Except Error Areas := do
  let readings := draft.readings
  if readings.any (·.1.isEmpty) then throw .emptyReading
  let image ← (Louds.build (readings.map (Utf8.encode ·.1))).mapError .trie
  let trie ← (Louds.Trie.ofBytes image).mapError .trie
  let placed ← placeWordLists trie (.replicate trie.numKeys none) readings
  let lists := placed.map (·.getD [])
  let (records, pool) ← placeWords .empty lists.flatten
  if UInt32.size ≤ records.length then throw .tooManyWords
  return {
    trie := image
    index := (slotsFrom 0 lists).flatMap Slot.encode
    records := records.flatMap Record.encode
    pool := pool.toBytes }

end Draft

/-- The areas as regions of a data set, the pool without alignment. -/
def Areas.regions (areas : Areas) (alignment : Nat) : List DataSet.Draft.Region :=
  [⟨trieRegion, alignment, areas.trie⟩, ⟨indexRegion, alignment, areas.index⟩,
    ⟨recordRegion, alignment, areas.records⟩, ⟨poolRegion, 8, areas.pool⟩]

namespace Draft

/-- The data set with the areas of the lexicon added as regions. Where a region is refused, those
before it have been added. -/
def writeTo (draft : Draft) (target : DataSet.Draft) (alignment : Nat) :
    DataSet.Draft × Except Error Unit :=
  match draft.areas with
  | .error e => (target, .error e)
  | .ok areas =>
    let (target, outcome) := target.addAll (areas.regions alignment)
    (target, outcome.mapError .dataSet)

/-- The blob of a data set that holds the lexicon and nothing else. -/
def toBlob (draft : Draft) (alignment : Nat) : Except Error (List UInt8) :=
  match draft.writeTo (.empty DataSet.defaultMagic) alignment with
  | (target, .ok ()) => .ok target.toBytes
  | (_, .error e) => .error e

end Draft

end KanaKanji.Lexicon
