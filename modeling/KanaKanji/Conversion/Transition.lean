import KanaKanji.Conversion.Segments
import KanaKanji.Text.Quoted
import KanaKanji.Text.Script

/-!
# Transitions of a conversion

The steps by which a user edits a conversion. Indices of segments are 64-bit numbers that count from
the first conversion segment, and the position that one stands for is a sum of such numbers, which
wraps around (`countOn`). A transition hands back the state that it reached and, if it was refused,
why: the checks of each come before its first change, so that a refused one should have reached
nothing new.

Boundaries move by characters. `resizeSegment` moves the end of one segment, `resizeSegments` cuts a
row of segments anew.
-/

set_option autoImplicit false

namespace KanaKanji

/-- Why a resize is refused. -/
inductive ResizeFault
  | zeroOffset
  | lastCannotGrow
  | wouldBecomeEmpty
  | pastEndOfKey
  | rangeOutOfBounds
  | tooManySizes
  | emptyKey
  deriving DecidableEq, Repr

/-- The message for a refused resize. -/
def ResizeFault.message : ResizeFault → String
  | .zeroOffset => "offset is zero"
  | .lastCannotGrow => "the last segment cannot grow"
  | .wouldBecomeEmpty => "segment would become empty"
  | .pastEndOfKey => "segment would extend past the end of the key"
  | .rangeOutOfBounds => "segment range is out of bounds"
  | .tooManySizes => "too many sizes"
  | .emptyKey => "segments have an empty key"

/-- Why a transition is refused. -/
inductive SegmentsError
  | segmentOutOfRange (segment : Nat)
  | candidateOutOfRange (segment : Nat) (candidate : Int)
  | invalidResize (fault : ResizeFault)
  | invalidRequestType (expected actual : RequestType)
  | invalidPartialKey (key current new : String)
  | emptyKey
  | missingComposer
  | noHistoryToken
  deriving DecidableEq, Repr

/-- The message for a refused transition. -/
def SegmentsError.message : SegmentsError → String
  | .segmentOutOfRange segment => s!"conversion segment {segment} does not exist"
  | .candidateOutOfRange segment candidate =>
    s!"candidate {candidate} does not exist in conversion segment {segment}"
  | .invalidResize fault => s!"invalid resize: {fault.message}"
  | .invalidRequestType expected actual =>
    s!"operation needs a {expected.name} request, segments hold {actual.name}"
  | .invalidPartialKey key current new =>
    "partial key " ++ Quoted.encode current ++ " (+ " ++ Quoted.encode new ++
      ") does not split segment key " ++ Quoted.encode key
  | .emptyKey => "conversion key is empty"
  | .missingComposer => "conversion request has no composer"
  | .noHistoryToken => "no number or alphabet token at the end of the preceding text"

/-- The state that a transition reached, and whether it was refused. -/
abbrev Outcome := Segments × Except SegmentsError Unit

namespace Segments

/-- The outcome of a transition that was carried out. -/
def done (s : Segments) : Outcome := (s, .ok ())

/-- The outcome of a transition that was refused in a state. -/
def refused (s : Segments) (e : SegmentsError) : Outcome := (s, .error e)

/-- The position that the index of a conversion segment stands for: it counts on from the end of the
history. The sum is a 64-bit number as well, so that behind the greatest one it is small again. -/
def countOn (s : Segments) (segment : UInt64) : Nat :=
  (s.historySize + segment.toNat) % UInt64.size

/-- A position, if a segment stands there; otherwise the index is refused that it was found by. -/
def checkPosition (s : Segments) (position segment : Nat) : Except SegmentsError Nat :=
  if position < s.segments.length then .ok position else .error (.segmentOutOfRange segment)

/-- The position of a conversion segment among all segments. -/
def position (s : Segments) (segment : UInt64) : Except SegmentsError Nat :=
  s.checkPosition (s.countOn segment) segment.toNat

/-- The position of the first conversion segment, which stands right behind the history. -/
def firstPosition (s : Segments) : Except SegmentsError Nat := s.checkPosition s.historySize 0

/-- Checks that the segments are converted for a request of a type. -/
def requireType (s : Segments) (expected : RequestType) : Except SegmentsError Unit :=
  if s.requestType = expected then .ok () else .error (.invalidRequestType expected s.requestType)

/-! ### Starting over -/

/-- One free segment for the key instead of the conversion segments. -/
def setKey (s : Segments) (key : String) : Segments :=
  s.clearConversion.pushBack (.new key .free)

/-- One segment whose value is chosen instead of the conversion segments. -/
def setKeyValue (s : Segments) (key value : String) : Segments :=
  ({ s.clearConversion with requestType := .conversion } : Segments).pushBack
    ((Segment.new key .fixedValue).pushBack (.new key value))

/-- The conversion is given up; the history stays. -/
def cancelConversion (s : Segments) : Segments := s.clearConversion

/-- The conversion is given up and nothing is left to take back; the history stays. -/
def resetConversion (s : Segments) : Segments := s.clearConversion.clearRevertEntries

/-- The conversion is undone; the history stays. -/
def revertConversion (s : Segments) : Segments := s.clearRevertEntries.clearConversion

/-- The conversion is finished: the last segments, as many as may be kept, become history. -/
def finishConversion (s : Segments) : Segments :=
  let excess := s.segments.length - s.maxHistorySegments
  { s with
    segments := (s.segments.drop excess).map fun segment ↦ { segment with type := .history }
    revertEntries := []
    resized := false }

/-! ### Choosing values -/

/-- The candidate at an index ranked first in a segment of the given type, and marked as moved
unless it stood there. -/
def chosen (segment : Segment) (candidate : Int) (type : SegmentType) : Segment :=
  let moved := (segment.move? candidate 0).getD segment
  let marked := if candidate = 0 then moved
    else moved.modifyCandidate 0 (·.withAttributes .reranked)
  { marked with type }

/-- Chooses a candidate of the segment at a position among all segments. -/
def commitAt (s : Segments) (position : Nat) (candidate : Int) (type : SegmentType) : Outcome :=
  match s.segments[position]? with
  | none => s.refused (.segmentOutOfRange (position - s.historySize))
  | some segment =>
    if segment.isValidIndex candidate then (s.modify position (chosen · candidate type)).done
    else s.refused (.candidateOutOfRange (position - s.historySize) candidate)

/-- Makes a candidate the value of a conversion segment. -/
def commitSegment (s : Segments) (segment : UInt64) (candidate : Int) : Outcome :=
  match s.position segment with
  | .error e => s.refused e
  | .ok position => s.commitAt position candidate .fixedValue

/-- Whether a key can be split into a front part, which is not all of it, and a rest that is typed
again as `new`. -/
def splitsKey (key current new : String) : Bool :=
  !current.isEmpty && !new.isEmpty && current.toList.isPrefixOf key.toList && current != key

/-- The submitted segment with the front part of its key. Its first candidate is marked if its key
is not as long as the segment's was. -/
def shortened (segment : Segment) (current : String) : Segment :=
  let mark := fun (c : Candidate) ↦
    if c.key.length = segment.keyLength then c else c.withAttributes .autoPartialSuggestion
  { segment.modifyCandidate 0 mark with key := current }

/-- Submits the front part of a segment with one of its candidates, and puts a free segment behind
it for the rest, which need not be the rest of the key. -/
def commitPartially (s : Segments) (segment : UInt64) (candidate : Int) (current new : String) :
    Outcome :=
  match s.position segment with
  | .error e => s.refused e
  | .ok position =>
    let target := s.segments.getD position default
    if !target.isValidIndex candidate then
      s.refused (.candidateOutOfRange segment.toNat candidate)
    else if !splitsKey target.key current new then
      s.refused (.invalidPartialKey target.key current new)
    else
      match s.commitAt position candidate .submitted with
      | (s, .error e) => (s, .error e)
      | (s, .ok ()) =>
        let s := s.modify position (shortened · current)
        done { s with segments := s.segments.insertIdx (position + 1) (.new new .free) }

/-- Checks that submitting the segments in turn finds a segment and a candidate for each index;
`rest` begins with the first conversion segment, and `turn` counts the segments before it. -/
def checkCommits (turn : Nat) (rest : List Segment) : List Int → Except SegmentsError Unit
  | [] => .ok ()
  | candidate :: candidates =>
    match rest with
    | [] => .error (.segmentOutOfRange turn)
    | segment :: rest =>
      if segment.isValidIndex candidate then
        checkCommits (turn + 1) (rest.dropWhile committed) candidates
      else .error (.candidateOutOfRange turn candidate)

/-- Submits the first conversion segment again and again, with one candidate each time. -/
def commitInTurn (s : Segments) : List Int → Outcome
  | [] => s.done
  | candidate :: candidates =>
    match s.firstPosition with
    | .error e => s.refused e
    | .ok position =>
      match s.commitAt position candidate .submitted with
      | (s, .error e) => (s, .error e)
      | (s, .ok ()) => s.commitInTurn candidates

/-- Submits the conversion segments from the front on, with one candidate each. -/
def commitSegments (s : Segments) (candidates : List Int) : Outcome :=
  match checkCommits 0 s.conversionSegments candidates with
  | .error e => s.refused e
  | .ok () => s.commitInTurn candidates

/-- Ranks a candidate first without choosing it. -/
def focusSegment (s : Segments) (segment : UInt64) (candidate : Int) : Outcome :=
  match s.position segment with
  | .error e => s.refused e
  | .ok position =>
    match (s.segments.getD position default).move? candidate 0 with
    | some moved => (s.modify position fun _ ↦ moved).done
    | none => s.refused (.candidateOutOfRange segment.toNat candidate)

/-- Leaves boundary and value of a segment to the converter again. -/
def freeSegment (s : Segments) (segment : UInt64) : Outcome :=
  match s.requireType .conversion with
  | .error e => s.refused e
  | .ok () =>
    match s.position segment with
    | .error e => s.refused e
    | .ok position => (s.modify position fun seg ↦ { seg with type := .free }).done

/-! ### Moving boundaries -/

/-- The first so many characters of the segments, and the segments behind them. A segment that is
cut keeps its rest as a free segment. -/
def absorb : Nat → List Segment → List Char × List Segment
  | 0, segments => ([], segments)
  | _ + 1, [] => ([], [])
  | wanted + 1, next :: rest =>
    let key := next.key.toList
    if key.length ≤ wanted + 1 then
      let (taken, behind) := absorb (wanted + 1 - key.length) rest
      (key ++ taken, behind)
    else (key.take (wanted + 1), .new (String.ofList (key.drop (wanted + 1))) .free :: rest)
termination_by _ segments => segments.length

/-- The segment and those behind it when it takes so many characters from them. -/
def grown (segment : Segment) (following : List Segment) (count : Nat) : List Segment :=
  let (taken, behind) := absorb count following
  .new (segment.key ++ String.ofList taken) .fixedBoundary :: behind

/-- The segment and those behind it when it keeps so many characters and hands the others to the
next segment, or to a new one at the end. -/
def shrunk (segment : Segment) (following : List Segment) (count : Nat) : List Segment :=
  let released := Text.dropChars count segment.key
  .new (Text.takeChars count segment.key) .fixedBoundary ::
    match following with
    | [] => [.new released .free]
    | next :: rest => .new (released ++ next.key) .free :: rest

/-- Moves the end of a conversion segment by so many characters. The segment's boundary is then set,
and the segment that gains or loses at its other side is free; both lose their candidates. -/
def resizeSegment (s : Segments) (segment : UInt64) (offset : Int) : Outcome :=
  match s.requireType .conversion with
  | .error e => s.refused e
  | .ok () =>
    if offset = 0 then s.refused (.invalidResize .zeroOffset)
    else
      match s.position segment with
      | .error e => s.refused e
      | .ok position =>
        let target := s.segments.getD position default
        let following := s.segments.drop (position + 1)
        let replaceWith := fun changed ↦
          done { s with segments := s.segments.take position ++ changed, resized := true }
        if 0 < offset ∧ following = [] then s.refused (.invalidResize .lastCannotGrow)
        else if (target.keyLength : Int) + offset ≤ 0 then
          s.refused (.invalidResize .wouldBecomeEmpty)
        else if ((keyOf following).length : Int) < offset then
          s.refused (.invalidResize .pastEndOfKey)
        else if 0 < offset then replaceWith (grown target following offset.toNat)
        else replaceWith (shrunk target following (target.keyLength + offset).toNat)

/-- The greatest number of sizes that a row of segments can be cut by. -/
def maxSizes : Nat := 256

/-- Pieces of the characters with the given lengths, as far as the characters reach; a length of
zero is passed over, and what remains is a piece of its own. -/
def cutBySizes : List Nat → List Char → List (List Char)
  | [], cs => if cs.isEmpty then [] else [cs]
  | size :: sizes, cs =>
    if size = 0 ∨ cs.isEmpty then cutBySizes sizes cs
    else cs.take size :: cutBySizes sizes (cs.drop size)

/-- Cuts a row of conversion segments anew into pieces of the given numbers of characters. -/
def resizeSegments (s : Segments) (start : UInt64) (count : Nat) (sizes : List UInt8) : Outcome :=
  match s.requireType .conversion with
  | .error e => s.refused e
  | .ok () =>
    match s.position start with
    | .error e => s.refused e
    | .ok first =>
      if count = 0 ∨ s.segments.length < first + count then
        s.refused (.invalidResize .rangeOutOfBounds)
      else if maxSizes < sizes.length then s.refused (.invalidResize .tooManySizes)
      else
        let key := (keyOf ((s.segments.drop first).take count)).toList
        if key.isEmpty then s.refused (.invalidResize .emptyKey)
        else
          let pieces := cutBySizes (sizes.map UInt8.toNat) key
          let segments := pieces.map fun piece ↦
            Segment.new (String.ofList piece) .fixedBoundary
          done { s with
            segments := s.segments.take first ++ segments ++ s.segments.drop (first + count)
            resized := true }

/-! ### History from text -/

/-- The scripts of which a token can be made. -/
inductive TokenScript
  | number
  | alphabet
  deriving DecidableEq, Repr

/-- The script of a character, if a token can hold it. -/
def scriptOf? (c : Char) : Option TokenScript :=
  if Script.isNumber c then some .number
  else if Script.isAlphabet c then some .alphabet
  else none

/-- The longest run of characters of one script at the end of a text, before one space at most. -/
def lastToken? (text : String) : Option String :=
  let backwards := match text.toList.reverse with
    | ' ' :: rest => rest
    | cs => cs
  match backwards with
  | [] => none
  | c :: _ =>
    (scriptOf? c).map fun script ↦
      String.ofList (backwards.takeWhile (scriptOf? · == some script)).reverse

/-- The history segment of a token: its key is the token in half-width characters. -/
def tokenSegment (token : String) : Segment :=
  let key := Script.toHalfWidth token
  (Segment.new key .history).pushBack ((Candidate.new key token).withAttributes .noLearning)

/-- One history segment, made from the end of the text before the cursor, instead of all
segments. -/
def reconstructHistory (s : Segments) (precedingText : String) : Outcome :=
  match lastToken? precedingText with
  | none => s.refused .noHistoryToken
  | some token => (s.clear.pushBack (tokenSegment token)).done

end Segments

end KanaKanji
