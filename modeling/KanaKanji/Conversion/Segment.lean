import KanaKanji.Conversion.Candidate

/-!
# Segments

A segment is a span of the key with its candidates, the best first. Candidates from outside the
ranking, such as transliterations, are kept apart as meta candidates. One index addresses both: it
counts candidates from zero upwards and meta candidates from minus one downwards
(`Segment.candidate?`).
-/

set_option autoImplicit false

namespace KanaKanji

/-- How far a segment is settled. -/
inductive SegmentType
  /-- Boundary and value are up to the converter. -/
  | free
  /-- The user has set the boundary. -/
  | fixedBoundary
  /-- The user has chosen the value. -/
  | fixedValue
  /-- Committed ahead of the rest of the conversion. -/
  | submitted
  /-- Committed earlier and kept as context. -/
  | history
  deriving DecidableEq, Repr, Inhabited

/-- The name of a type in messages. -/
def SegmentType.name : SegmentType → String
  | .free => "Free"
  | .fixedBoundary => "FixedBoundary"
  | .fixedValue => "FixedValue"
  | .submitted => "Submitted"
  | .history => "History"

/-- Whether segments of the type are context and no longer converted. -/
def SegmentType.isCommitted : SegmentType → Bool
  | .submitted | .history => true
  | _ => false

/-- A span of the key with its candidates. -/
structure Segment where
  key : String := ""
  type : SegmentType := .free
  candidates : List Candidate := []
  metaCandidates : List Candidate := []
  deriving DecidableEq, Repr, Inhabited

/-- The position among the meta candidates that a negative index stands for. -/
def metaPosition (i : Int) : Nat := (-(i + 1)).toNat

namespace Segment

/-- The segment without candidates. -/
def new (key : String) (type : SegmentType) : Segment := { key, type }

/-- The number of characters of the key. -/
def keyLength (s : Segment) : Nat := s.key.length

/-- The candidate at an index, a meta candidate if the index is negative. -/
def candidate? (s : Segment) (i : Int) : Option Candidate :=
  if i < 0 then s.metaCandidates[metaPosition i]? else s.candidates[i.toNat]?

/-- Whether an index addresses a candidate or a meta candidate. -/
def isValidIndex (s : Segment) (i : Int) : Bool := (s.candidate? i).isSome

/-- The segment with a change to the candidate at an index, if there is one. -/
def modifyCandidate (s : Segment) (i : Int) (f : Candidate → Candidate) : Segment :=
  if i < 0 then { s with metaCandidates := s.metaCandidates.modify (metaPosition i) f }
  else { s with candidates := s.candidates.modify i.toNat f }

/-- The index of the first candidate with a value; meta candidates are looked at last. -/
def indexOf? (s : Segment) (value : String) : Option Int :=
  match s.candidates.findIdx? (·.value == value) with
  | some i => some i
  | none => (s.metaCandidates.findIdx? (·.value == value)).map fun m ↦ -(m : Int) - 1

/-! ### Changing the candidates -/

/-- The segment with one more candidate, ranked last. -/
def pushBack (s : Segment) (c : Candidate) : Segment := { s with candidates := s.candidates ++ [c] }

/-- The segment with one more candidate, ranked first. -/
def pushFront (s : Segment) (c : Candidate) : Segment := { s with candidates := c :: s.candidates }

/-- The segment with one more meta candidate. -/
def pushMeta (s : Segment) (c : Candidate) : Segment :=
  { s with metaCandidates := s.metaCandidates ++ [c] }

/-- The segment with a candidate at a rank, which may not lie past the end. -/
def insert? (s : Segment) (i : Nat) (c : Candidate) : Option Segment :=
  if i ≤ s.candidates.length then some { s with candidates := s.candidates.insertIdx i c } else none

/-- The candidate at a rank and the segment without it. -/
def erase? (s : Segment) (i : Nat) : Option (Candidate × Segment) :=
  s.candidates[i]?.map (·, { s with candidates := s.candidates.eraseIdx i })

/-- The first candidate and the segment without it. -/
def popFront? (s : Segment) : Option (Candidate × Segment) := s.erase? 0

/-- The last candidate and the segment without it. -/
def popBack? (s : Segment) : Option (Candidate × Segment) := s.erase? (s.candidates.length - 1)

/-- The list without so many elements from a position on; unchanged unless they all exist. -/
def eraseRange {α : Type} (xs : List α) (start count : Nat) : List α :=
  if start < xs.length ∧ start + count ≤ xs.length then xs.take start ++ xs.drop (start + count)
  else xs

/-- The segment without the candidates of a range of ranks. -/
def eraseCandidates (s : Segment) (start count : Nat) : Segment :=
  { s with candidates := eraseRange s.candidates start count }

/-- The segment with its best candidates only. -/
def truncate (s : Segment) (count : Nat) : Segment :=
  { s with candidates := s.candidates.take count }

/-- The segment without candidates; meta candidates stay. -/
def clearCandidates (s : Segment) : Segment := { s with candidates := [] }

/-- The segment without meta candidates. -/
def clearMeta (s : Segment) : Segment := { s with metaCandidates := [] }

/-- The list with the element at one position moved to another, the others in their order. -/
def moveElement {α : Type} (xs : List α) (source target : Nat) : List α :=
  match xs[source]? with
  | some a => (xs.eraseIdx source).insertIdx target a
  | none => xs

/-- The segment with a candidate moved to a rank, the others in their order. A meta candidate is
copied there and stays. There is no such segment if one of the two indices addresses nothing. -/
def move? (s : Segment) (source : Int) (target : Nat) : Option Segment :=
  if source < 0 then (s.candidate? source).bind (s.insert? target)
  else if source.toNat < s.candidates.length ∧ target < s.candidates.length then
    some { s with candidates := moveElement s.candidates source.toNat target }
  else none

/-! ### Text -/

/-- The lines of the candidates with their indices. -/
def displayCandidates (index : Nat → Int) (candidates : List Candidate) : List String :=
  candidates.zipIdx.map fun (c, i) ↦ s!"    cand {index i} {c.display}\n"

/-- The segment with all its candidates, meta candidates first. -/
def display (s : Segment) : String :=
  s!"[segtype={s.type.name} key={s.key}\n" ++
    String.join (displayCandidates (fun m ↦ -(m : Int) - 1) s.metaCandidates) ++
    String.join (displayCandidates (fun i ↦ (i : Int)) s.candidates) ++ "]"

end Segment

end KanaKanji
