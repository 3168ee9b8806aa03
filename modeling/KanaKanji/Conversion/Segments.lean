import KanaKanji.Conversion.Segment
import KanaKanji.Settings.Basic

/-!
# The state of a conversion

The segments of a conversion in a row: first the history, which is the longest run of committed
segments at the front, then the conversion segments, which are still being edited. Beside them the
state keeps the request that it answers, its limits, and what learners have recorded and may have to
take back.

This module holds the two regions (`historySegments`, `conversionSegments`) and the changes that
need no check. The transitions that can be refused are in `KanaKanji.Conversion.Transition`.
-/

set_option autoImplicit false

namespace KanaKanji

/-- What the segments are converted for. -/
inductive RequestType
  | conversion
  | prediction
  | suggestion
  | partialPrediction
  | partialSuggestion
  | reverseConversion
  deriving DecidableEq, Repr, Inhabited

/-- The name of a request type in messages. -/
def RequestType.name : RequestType → String
  | .conversion => "Conversion"
  | .prediction => "Prediction"
  | .suggestion => "Suggestion"
  | .partialPrediction => "PartialPrediction"
  | .partialSuggestion => "PartialSuggestion"
  | .reverseConversion => "ReverseConversion"

/-- What kind of thing a learner recorded. -/
inductive RevertEntryType
  | createEntry
  deriving DecidableEq, Repr, Inhabited

/-- Something that a learner recorded during the conversion. -/
structure RevertEntry where
  type : RevertEntryType := .createEntry
  id : UInt16
  timestamp : UInt32
  key : String
  deriving DecidableEq, Repr, Inhabited

/-- The state of a conversion. -/
structure Segments where
  segments : List Segment := []
  requestType : RequestType := .conversion
  maxHistorySegments : Nat
  maxPredictionCandidates : Nat
  maxConversionCandidates : Nat
  resized : Bool := false
  userHistoryEnabled : Bool := true
  revertEntries : List RevertEntry := []
  deriving DecidableEq, Repr, Inhabited

namespace Segments

/-- The state without segments, with the limits of the settings. -/
def ofSettings (settings : SegmentsSettings) : Segments where
  maxHistorySegments := min settings.maxHistorySegments historyLimit
  maxPredictionCandidates := settings.maxPredictionCandidates
  maxConversionCandidates := settings.maxConversionCandidates

/-- The state without segments, with the usual limits. -/
def empty : Segments := ofSettings {}

/-! ### Regions -/

/-- Whether a segment is committed. -/
def committed (segment : Segment) : Bool := segment.type.isCommitted

/-- The committed segments at the front. -/
def historySegments (s : Segments) : List Segment := s.segments.takeWhile committed

/-- The segments from the first that is not committed on. -/
def conversionSegments (s : Segments) : List Segment := s.segments.dropWhile committed

/-- The number of committed segments at the front. -/
def historySize (s : Segments) : Nat := s.historySegments.length

/-- The number of segments from the first that is not committed on. -/
def conversionSize (s : Segments) : Nat := s.conversionSegments.length

/-- The key of the segments in a row. -/
def keyOf (segments : List Segment) : String := Text.joined (segments.map Segment.key)

/-- The key of the conversion segments. -/
def conversionKey (s : Segments) : String := keyOf s.conversionSegments

/-! ### Changing the segments -/

/-- The state with one more segment at the end. -/
def pushBack (s : Segments) (segment : Segment) : Segments :=
  { s with segments := s.segments ++ [segment] }

/-- The state with one more segment at the front. -/
def pushFront (s : Segments) (segment : Segment) : Segments :=
  { s with segments := segment :: s.segments }

/-- The state with a segment at a position, which may not lie past the end. -/
def insert? (s : Segments) (i : Nat) (segment : Segment) : Option Segments :=
  if i ≤ s.segments.length then some { s with segments := s.segments.insertIdx i segment } else none

/-- The segment at a position and the state without it. -/
def erase? (s : Segments) (i : Nat) : Option (Segment × Segments) :=
  s.segments[i]?.map (·, { s with segments := s.segments.eraseIdx i })

/-- The state without so many segments from a position on; unchanged unless they all exist. -/
def eraseRange (s : Segments) (start count : Nat) : Segments :=
  { s with segments := Segment.eraseRange s.segments start count }

/-- The state with a change to the segment at a position, if there is one. -/
def modify (s : Segments) (i : Nat) (f : Segment → Segment) : Segments :=
  { s with segments := s.segments.modify i f }

/-- The state without segments. -/
def clearSegments (s : Segments) : Segments := { s with segments := [], resized := false }

/-- The state without anything to take back. -/
def clearRevertEntries (s : Segments) : Segments := { s with revertEntries := [] }

/-- The state without segments and without anything to take back. -/
def clear (s : Segments) : Segments := s.clearSegments.clearRevertEntries

/-- The state without its history. -/
def clearHistory (s : Segments) : Segments := { s with segments := s.conversionSegments }

/-- The state with its history only. -/
def clearConversion (s : Segments) : Segments :=
  { s with segments := s.historySegments, resized := false }

/-- The state with another limit for history segments, as far as that is allowed. -/
def setMaxHistory (s : Segments) (size : Nat) : Segments :=
  { s with maxHistorySegments := min size historyLimit }

/-- The state with something more to take back. -/
def pushRevertEntry (s : Segments) (entry : RevertEntry) : Segments :=
  { s with revertEntries := s.revertEntries ++ [entry] }

/-! ### Text -/

/-- All segments with their candidates. -/
def display (s : Segments) : String :=
  "\x7b\n" ++
    String.join (s.segments.zipIdx.map fun (segment, i) ↦ s!"  seg {i} {segment.display}\n") ++
    "\x7d"

end Segments

end KanaKanji
