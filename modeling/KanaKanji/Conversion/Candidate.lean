import KanaKanji.Text.Cut
import KanaKanji.Text.Hex
import KanaKanji.Text.Utf8

/-!
# Candidates

A candidate is one way of writing a key: a value with its costs, context ids and attributes. The
content key and the content value are what remains without functional suffixes, such as particles.
-/

set_option autoImplicit false

namespace KanaKanji

/-! ### Attributes -/

/-- A set of flags that say where a candidate comes from and how it is to be handled. -/
structure CandidateAttributes where
  bits : UInt32 := 0
  deriving DecidableEq, Repr, Inhabited

namespace CandidateAttributes

/-- No flag. -/
def empty : CandidateAttributes := {}

def bestCandidate : CandidateAttributes := ⟨0x1⟩

/-- Moved to the top by the user or by a rewriter. -/
def reranked : CandidateAttributes := ⟨0x2⟩

def noHistoryLearning : CandidateAttributes := ⟨0x4⟩

def noSuggestLearning : CandidateAttributes := ⟨0x8⟩

def noLearning : CandidateAttributes := ⟨0xC⟩

def contextSensitive : CandidateAttributes := ⟨0x10⟩

def spellingCorrection : CandidateAttributes := ⟨0x20⟩

def noVariantsExpansion : CandidateAttributes := ⟨0x40⟩

def noExtraDescription : CandidateAttributes := ⟨0x80⟩

def realtimeConversion : CandidateAttributes := ⟨0x100⟩

def userDictionary : CandidateAttributes := ⟨0x200⟩

def commandCandidate : CandidateAttributes := ⟨0x400⟩

/-- The key of the candidate covers only the front of the segment's key. -/
def partiallyKeyConsumed : CandidateAttributes := ⟨0x800⟩

def typingCorrection : CandidateAttributes := ⟨0x1000⟩

def autoPartialSuggestion : CandidateAttributes := ⟨0x2000⟩

def kanaModifierExpanded : CandidateAttributes := ⟨0x4000⟩

/-- Marked for removal by a rewriter. -/
def removed : CandidateAttributes := ⟨0x8000⟩

/-- Whether no flag is set. -/
def isEmpty (a : CandidateAttributes) : Bool := a.bits == 0

/-- Whether all flags of the other set are set. -/
def contains (a b : CandidateAttributes) : Bool := a.bits &&& b.bits == b.bits

/-- The flags of both sets. -/
def union (a b : CandidateAttributes) : CandidateAttributes := ⟨a.bits ||| b.bits⟩

/-- The flags that are not in the other set. -/
def remove (a b : CandidateAttributes) : CandidateAttributes := ⟨a.bits &&& ~~~ b.bits⟩

/-- The flags as a number in base sixteen. -/
def display (a : CandidateAttributes) : String := Hex.numeral a.bits.toNat

end CandidateAttributes

/-! ### Costs -/

/-- The sum of two costs, held within 32 bits. -/
def addCost (a b : Int32) : Int32 :=
  Int32.ofInt (max Int32.minValue.toInt (min Int32.maxValue.toInt (a.toInt + b.toInt)))

/-! ### Candidates -/

/-- One way of writing a key. -/
structure Candidate where
  key : String
  value : String
  contentKey : String
  contentValue : String
  /-- The bytes of the segment's key that the candidate covers. -/
  consumedKeySize : Nat
  prefixText : String := ""
  suffixText : String := ""
  description : String := ""
  /-- The total cost; a lower one ranks higher. -/
  cost : Int32 := 0
  wordCost : Int32 := 0
  structureCost : Int32 := 0
  leftId : UInt16 := 0
  rightId : UInt16 := 0
  attributes : CandidateAttributes := {}
  /-- The characters of key and value in each of the words that the candidate is made of. -/
  innerSegments : List (Nat × Nat) := []
  deriving DecidableEq, Repr, Inhabited

namespace Candidate

/-- The candidate with a content of its own. -/
def withContent (key value contentKey contentValue : String) : Candidate :=
  { key, value, contentKey, contentValue, consumedKeySize := Utf8.byteLength key }

/-- The candidate that is nothing but content. -/
def new (key value : String) : Candidate := withContent key value key value

/-- The candidate with one number for its total cost and the cost of its word. -/
def withCost (c : Candidate) (cost : Int32) : Candidate := { c with cost, wordCost := cost }

/-- The candidate with further attributes. -/
def withAttributes (c : Candidate) (a : CandidateAttributes) : Candidate :=
  { c with attributes := c.attributes.union a }

/-- What follows the content in the key, such as the reading of a particle. -/
def functionalKey (c : Candidate) : String := Text.afterByte (Utf8.byteLength c.contentKey) c.key

/-- What follows the content in the value. -/
def functionalValue (c : Candidate) : String :=
  Text.afterByte (Utf8.byteLength c.contentValue) c.value

/-- The characters of key and value in all inner segments together. -/
def innerLengths : List (Nat × Nat) → Nat × Nat
  | [] => (0, 0)
  | (key, value) :: rest =>
    let (keys, values) := innerLengths rest
    (key + keys, value + values)

/-- A valid candidate has a value that begins with its content, and its inner segments, if there are
any, add up to its key and its value. -/
def isValid (c : Candidate) : Bool :=
  c.contentValue.toList.isPrefixOf c.value.toList &&
    (c.innerSegments.isEmpty ||
      decide (innerLengths c.innerSegments = (c.key.length, c.value.length)))

/-- A field that is shown only if it holds something. -/
def displayOptional (name value : String) : String :=
  if value.isEmpty then "" else s!" {name}={value}"

/-- The inner segments, shown only if there are any. -/
def displayInner (inner : List (Nat × Nat)) : String :=
  if inner.isEmpty then ""
  else " segbdd=" ++ String.join (inner.map fun (key, value) ↦ s!"<{key},{value}>")

/-- The candidate on one line. -/
def display (c : Candidate) : String :=
  s!"(key={c.key} ckey={c.contentKey} val={c.value} cval={c.contentValue} cost={c.cost.toInt}" ++
    s!" scost={c.structureCost.toInt} wcost={c.wordCost.toInt} lid={c.leftId} rid={c.rightId}" ++
    s!" attributes={c.attributes.display} consumed_key_size={c.consumedKeySize}" ++
    displayOptional "prefix" c.prefixText ++ displayOptional "suffix" c.suffixText ++
    displayOptional "description" c.description ++ displayInner c.innerSegments ++ ")"

end Candidate

end KanaKanji
