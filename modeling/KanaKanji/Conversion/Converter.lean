import KanaKanji.Conversion.Rewriter
import KanaKanji.Conversion.Transition
import KanaKanji.Dictionary

/-!
# Converting segments

A converter fills segments with candidates from a dictionary. The free segments between others are
joined and their key is split anew: at each place into the longest reading that begins there, and
the characters at which none begins into one piece as long as they follow one another. A segment
whose boundary is set keeps it and gets new candidates; a segment whose value is chosen, or that is
committed, stays as it is. At last the rewriters run, and the candidates beyond the limit go.

Prediction gives the whole key as one segment, whose candidates are the words of readings that begin
with it.
-/

set_option autoImplicit false

namespace KanaKanji

/-- A dictionary and the rewriters that run over each converted segment. -/
structure Converter where
  dictionary : Dictionary
  rewriters : List Rewriter

/-- What is added to the cost of words that are found only by ignoring modifiers. -/
def modifierPenalty : Int32 := 1500

/-- The number of readings that prediction looks at. -/
def predictionScanLimit : Nat := 1000

/-- The candidate for a word. -/
def Candidate.ofWord (key : String) (word : Word) (penalty : Int32) : Candidate :=
  let cost := Int32.ofInt word.cost.toInt
  { (Candidate.new key word.surface).withCost cost with
    cost := addCost cost penalty
    leftId := word.leftId
    rightId := word.rightId }

namespace Converter

/-- The converter with the rewriters for hiragana and katakana. -/
def ofDictionary (dictionary : Dictionary) : Converter := ⟨dictionary, [.hiragana, .katakana]⟩

/-- The converter with one more rewriter, which runs last. -/
def addRewriter (c : Converter) (r : Rewriter) : Converter :=
  { c with rewriters := c.rewriters ++ [r] }

/-! ### Splitting a key -/

/-- The search for readings that a text begins with, as the request wants it. -/
def prefixSearch (c : Converter) (request : ConversionRequest) : String → List Finding :=
  if request.isModifierInsensitive then c.dictionary.modifierInsensitiveSearch
  else c.dictionary.commonPrefixSearch

/-- The longest front part of the characters that is as long as one of the readings, and the rest.
Sizes are in bytes; one that ends within a character does not count. -/
def longestFront? (found : List Finding) (cs : List Char) : Option (List Char × List Char) :=
  let sizes := (found.map fun f ↦ Utf8.byteLength f.reading).filter fun n ↦
    0 < n && (Text.splitAtByte? n cs).isSome
  sizes.max?.bind (Text.splitAtByte? · cs)

theorem length_lt_of_longestFront? {found : List Finding} {cs front back : List Char}
    (h : longestFront? found cs = some (front, back)) : back.length < cs.length := by
  obtain ⟨n, hmax, hsplit⟩ := Option.bind_eq_some_iff.1 h
  have hpos : 0 < n := by
    have := List.max?_mem hmax
    simp only [List.mem_filter, Bool.and_eq_true, decide_eq_true_eq] at this
    exact this.2.1
  obtain ⟨rfl, hcount⟩ := Text.splitAtByte?_eq_some_iff.1 hsplit
  cases front with
  | nil => simp [Text.byteCount] at hcount; omega
  | cons c front => simp only [List.cons_append, List.length_cons, List.length_append]; omega

/-- A piece of the characters gathered so far, if there are any. -/
def gathered (unknown : List Char) : List (List Char) := if unknown.isEmpty then [] else [unknown]

/-- Splits characters into pieces by a search for readings; `unknown` holds the characters before
them at which no reading begins. -/
def splitBy (search : String → List Finding) (unknown cs : List Char) : List (List Char) :=
  match cs with
  | [] => gathered unknown
  | c :: rest =>
    match found : longestFront? (search (String.ofList (c :: rest))) (c :: rest) with
    | some (front, back) =>
      have : back.length < rest.length + 1 := length_lt_of_longestFront? found
      gathered unknown ++ front :: splitBy search [] back
    | none => splitBy search (unknown ++ [c]) rest
termination_by cs.length

/-- The pieces of a key. -/
def splitKey (c : Converter) (request : ConversionRequest) (key : String) : List String :=
  (splitBy (c.prefixSearch request) [] key.toList).map String.ofList

/-! ### Filling segments -/

/-- The candidates for the words of a key. -/
def exactCandidates (c : Converter) (key : String) : List Candidate :=
  (c.dictionary.lookup key).map (Candidate.ofWord key · 0)

/-- The candidates for the words of other readings that agree with a key up to modifiers. -/
def variantCandidates (c : Converter) (key : String) : List Candidate :=
  let found := (c.dictionary.modifierInsensitiveSearch key).filter fun f ↦
    Utf8.byteLength f.reading == Utf8.byteLength key && f.reading != key
  found.flatMap fun f ↦ f.words.map fun word ↦
    (Candidate.ofWord key word modifierPenalty).withAttributes .kanaModifierExpanded

/-- The candidates of a key: the cheapest first, of each value only the first, and the key itself if
there is no other. -/
def candidatesFor (c : Converter) (request : ConversionRequest) (key : String) : List Candidate :=
  let all := c.exactCandidates key ++
    if request.isModifierInsensitive then c.variantCandidates key else []
  let ranked := Ranking.firstOfEach Candidate.value (Ranking.sortOn (·.cost.toInt) all)
  if ranked.isEmpty then [.new key key] else ranked

/-- The segment with new candidates, and with the forms of its key in hiragana and in katakana as
meta candidates. -/
def fill (c : Converter) (request : ConversionRequest) (s : Segment) : Segment :=
  { s with
    candidates := c.candidatesFor request s.key
    metaCandidates := [.new s.key (Script.toHiragana s.key), .new s.key (Script.toKatakana s.key)] }

/-- Free segments for the pieces of a key. -/
def freshSegments (c : Converter) (request : ConversionRequest) (key : String) : List Segment :=
  (c.splitKey request key).map fun piece ↦ c.fill request (.new piece .free)

/-- The segments with the free ones among them split anew; `key` is the joined key of the free
segments before them. -/
def rebuild (c : Converter) (request : ConversionRequest) (key : String) :
    List Segment → List Segment
  | [] => c.freshSegments request key
  | s :: rest =>
    match s.type with
    | .free => c.rebuild request (key ++ s.key) rest
    | .fixedBoundary =>
      c.freshSegments request key ++ c.fill request s :: c.rebuild request "" rest
    | _ => c.freshSegments request key ++ s :: c.rebuild request "" rest

/-- The segment after the rewriters, with so many candidates at most. Chosen and committed segments
stay as they are. -/
def polish (c : Converter) (request : ConversionRequest) (limit : Nat) (s : Segment) : Segment :=
  match s.type with
  | .free | .fixedBoundary => (Rewriter.runAll request c.rewriters s).1.truncate limit
  | _ => s

/-- The state with its conversion segments converted. -/
def convert (c : Converter) (request : ConversionRequest) (s : Segments) : Segments :=
  let rebuilt := c.rebuild request "" s.conversionSegments
  { s with
    segments := s.historySegments ++ rebuilt.map (c.polish request s.maxConversionCandidates) }

/-! ### Operations -/

/-- The outcome with the state converted, unless the transition was refused. -/
def thenConvert (c : Converter) (request : ConversionRequest) : Outcome → Outcome
  | (s, .ok ()) => (c.convert request s).done
  | (s, .error e) => (s, .error e)

/-- Converts a key instead of the conversion segments. -/
def startConversion (c : Converter) (request : ConversionRequest) (s : Segments) (key : String) :
    Outcome :=
  if key.isEmpty then s.refused .emptyKey
  else (c.convert request { s.setKey key with requestType := .conversion }).done

/-- Converts the key that the composer of the request gives. -/
def startConversionForRequest (c : Converter) (request : ConversionRequest) (s : Segments) :
    Outcome :=
  match request.composerKey? with
  | none => s.refused .missingComposer
  | some key => c.startConversion request s key

/-- The segment of a predicted key with its candidates. -/
def predicted (c : Converter) (request : ConversionRequest) (limit : Nat) (key : String) :
    Segment :=
  let ranked := c.dictionary.predictRanked key limit predictionScanLimit
  let candidates := ranked.map fun (reading, word) ↦ Candidate.ofWord reading word 0
  let segment : Segment :=
    { Segment.new key .free with
      candidates := if candidates.isEmpty then [.new key key] else candidates }
  (Rewriter.runAll request c.rewriters segment).1.truncate limit

/-- Predicts words for a key instead of the conversion segments. -/
def predict (c : Converter) (request : ConversionRequest) (type : RequestType) (s : Segments)
    (key : String) : Outcome :=
  if key.isEmpty then s.refused .emptyKey
  else
    let cleared := { s.clearConversion with requestType := type }
    (cleared.pushBack (c.predicted request s.maxPredictionCandidates key)).done

/-- Predicts words for a key. -/
def startPrediction (c : Converter) (request : ConversionRequest) (s : Segments) (key : String) :
    Outcome :=
  c.predict request .prediction s key

/-- Suggests words for a key. -/
def startSuggestion (c : Converter) (request : ConversionRequest) (s : Segments) (key : String) :
    Outcome :=
  c.predict request .suggestion s key

/-- Makes a candidate the value of a conversion segment. -/
def commitSegment (_ : Converter) (s : Segments) (segment : UInt64) (candidate : Int) : Outcome :=
  s.commitSegment segment candidate

/-- Moves the end of a conversion segment and converts again. -/
def resizeSegment (c : Converter) (request : ConversionRequest) (s : Segments) (segment : UInt64)
    (offset : Int) : Outcome :=
  c.thenConvert request (s.resizeSegment segment offset)

/-- Cuts a row of conversion segments anew and converts again. -/
def resizeSegments (c : Converter) (request : ConversionRequest) (s : Segments) (start : UInt64)
    (count : Nat) (sizes : List UInt8) : Outcome :=
  c.thenConvert request (s.resizeSegments start count sizes)

/-- Leaves a segment to the converter again, which joins it with its free neighbours. -/
def freeSegment (c : Converter) (request : ConversionRequest) (s : Segments) (segment : UInt64) :
    Outcome :=
  c.thenConvert request (s.freeSegment segment)

/-- The summary that stands for a converter in messages. -/
def describe (c : Converter) : String := s!"Converter \x7b rewriters: {c.rewriters.length} \x7d"

end Converter

end KanaKanji
