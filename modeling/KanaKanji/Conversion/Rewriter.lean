import KanaKanji.Conversion.Request
import KanaKanji.Conversion.Segment

/-!
# Rewriters

A rewriter adds to the candidates of a segment or changes their order, and says whether it changed
anything. Two of them append the forms of the key in hiragana and in katakana (`Rewriter.hiragana`,
`Rewriter.katakana`) below all other candidates, where the form is not there already.
-/

set_option autoImplicit false

namespace KanaKanji

/-- A change to the candidates of a segment. A slow one is left out where the request says so. -/
structure Rewriter where
  rewrite : ConversionRequest → Segment → Segment × Bool
  isSlow : Bool := false

namespace Rewriter

/-- The highest cost among the candidates, zero if there are none. -/
def worstCost (s : Segment) : Int32 :=
  match s.candidates with
  | [] => 0
  | c :: rest => rest.foldl (fun worst d ↦ if worst ≤ d.cost then d.cost else worst) c.cost

/-- Whether a candidate has the value. -/
def hasValue (s : Segment) (value : String) : Bool := s.candidates.any (·.value == value)

/-- The segment with a value below every candidate, unless it is empty or there already. -/
def appendFallback (s : Segment) (value : String) (penalty : Int32) : Segment × Bool :=
  if value.isEmpty || hasValue s value then (s, false)
  else (s.pushBack ((Candidate.new s.key value).withCost (addCost (worstCost s) penalty)), true)

/-- Appends the katakana form of the key. -/
def katakana : Rewriter where
  rewrite _ s := appendFallback s (Script.toKatakana s.key) 10000

/-- Appends the hiragana form of the key, which ranks above the katakana form. -/
def hiragana : Rewriter where
  rewrite _ s := appendFallback s (Script.toHiragana s.key) 5000

/-- Runs the rewriters in order, and tells whether any of them changed the segment. -/
def runAll (request : ConversionRequest) : List Rewriter → Segment → Segment × Bool
  | [], s => (s, false)
  | r :: rest, s =>
    let (s, changed) :=
      if r.isSlow && request.skipSlowRewriters then (s, false) else r.rewrite request s
    let (s, changedLater) := runAll request rest s
    (s, changed || changedLater)

end Rewriter

end KanaKanji
