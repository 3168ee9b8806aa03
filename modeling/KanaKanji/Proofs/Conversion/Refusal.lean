import Mathlib
import KanaKanji.Conversion.Converter
import KanaKanji.Proofs.Conversion.Regions

/-!
# Refused transitions change nothing

Every transition hands back a state also when it is refused. `refused_unchanged` shows that this is
then the state it started from, in all its fields, for the transitions of the segments and for the
operations of any converter.

Most transitions check everything before their first change. Two of them change the state step by
step. Submitting a front part chooses a candidate first and splits the segment then; the check of
the candidate is the one that choosing makes again (`commitAt_eq_done`), at whatever position the
index of the segment stands for. Submitting several segments in turn works on the first conversion
segment each time: a submitted segment joins the history, so the next step takes the first segment
behind it that is not committed. The check follows the same path beforehand, so once it has passed
no step is refused (`commitInTurn_of_checkCommits`).
-/

set_option autoImplicit false

namespace KanaKanji

/-- An outcome in a state that has this state again if it was refused. -/
def KeptIfRefused (s : Segments) (outcome : Outcome) : Prop :=
  ∀ s' e, outcome = (s', .error e) → s' = s

/-- A function from states to outcomes that hands back its argument whenever it is refused. -/
def KeepsRefused (f : Segments → Outcome) : Prop := ∀ s, KeptIfRefused s (f s)

namespace Segments

/-- The transitions that can be refused, with their arguments. -/
inductive Transition
  | commitSegment (segment : UInt64) (candidate : ℤ)
  | commitPartially (segment : UInt64) (candidate : ℤ) (current new : String)
  | commitSegments (candidates : List ℤ)
  | focusSegment (segment : UInt64) (candidate : ℤ)
  | freeSegment (segment : UInt64)
  | resizeSegment (segment : UInt64) (offset : ℤ)
  | resizeSegments (start : UInt64) (count : ℕ) (sizes : List UInt8)
  | reconstructHistory (precedingText : String)

/-- The outcome of a transition in a state. -/
def Transition.apply : Transition → Segments → Outcome
  | .commitSegment segment candidate, s => s.commitSegment segment candidate
  | .commitPartially segment candidate current new, s =>
    s.commitPartially segment candidate current new
  | .commitSegments candidates, s => s.commitSegments candidates
  | .focusSegment segment candidate, s => s.focusSegment segment candidate
  | .freeSegment segment, s => s.freeSegment segment
  | .resizeSegment segment offset, s => s.resizeSegment segment offset
  | .resizeSegments start count sizes, s => s.resizeSegments start count sizes
  | .reconstructHistory precedingText, s => s.reconstructHistory precedingText

/-- The index of the segment that a transition is for. -/
def Transition.index? : Transition → Option UInt64
  | .commitSegment segment _ | .commitPartially segment _ _ _ | .focusSegment segment _
  | .freeSegment segment | .resizeSegment segment _ | .resizeSegments segment _ _ => some segment
  | .commitSegments _ | .reconstructHistory _ => none

theorem keptIfRefused_refused (s : Segments) (e : SegmentsError) :
    KeptIfRefused s (s.refused e) := by
  intro s' e' houtcome
  exact (congrArg Prod.fst houtcome).symm

theorem keptIfRefused_done (s t : Segments) : KeptIfRefused s t.done := by
  intro s' e houtcome
  simp [done] at houtcome

/-- What holds of a state holds after a transition if it holds whenever the transition is carried
out. -/
theorem holds_of_done {p : Segments → Prop} {s : Segments} (hs : p s) {outcome : Outcome}
    (hkept : KeptIfRefused s outcome) (hdone : ∀ t, outcome = done t → p t) : p outcome.1 := by
  rcases outcome with ⟨t, e | ⟨⟩⟩
  · exact hkept t e rfl ▸ hs
  · exact hdone t rfl

/-! ### Choosing values -/

theorem keepsRefused_commitAt (position : ℕ) (candidate : ℤ) (type : SegmentType) :
    KeepsRefused (·.commitAt position candidate type) := by
  intro s
  simp only [commitAt]
  split
  · exact keptIfRefused_refused s _
  · split
    · exact keptIfRefused_done s _
    · exact keptIfRefused_refused s _

theorem keepsRefused_commitSegment (segment : UInt64) (candidate : ℤ) :
    KeepsRefused (·.commitSegment segment candidate) := by
  intro s
  simp only [commitSegment]
  split
  · exact keptIfRefused_refused s _
  · exact keepsRefused_commitAt _ candidate .fixedValue s

/-- Choosing a candidate that was checked beforehand is carried out. -/
theorem commitAt_eq_done {s : Segments} {position : ℕ} {candidate : ℤ}
    (hlt : position < s.segments.length)
    (hvalid : (s.segments.getD position default).isValidIndex candidate = true)
    (type : SegmentType) :
    s.commitAt position candidate type = (s.modify position (chosen · candidate type)).done := by
  rw [List.getD_eq_getElem?_getD, List.getElem?_eq_getElem hlt, Option.getD_some] at hvalid
  rw [commitAt, List.getElem?_eq_getElem hlt]
  exact if_pos hvalid

theorem keepsRefused_commitPartially (segment : UInt64) (candidate : ℤ) (current new : String) :
    KeepsRefused (·.commitPartially segment candidate current new) := by
  intro s
  simp only [commitPartially]
  split
  · exact keptIfRefused_refused s _
  · next position hposition =>
    obtain ⟨hlt, rfl⟩ := position_eq_ok_iff_countOn.mp hposition
    split
    · exact keptIfRefused_refused s _
    · next hvalid =>
      rw [Bool.not_eq_true, Bool.not_eq_false'] at hvalid
      split
      · exact keptIfRefused_refused s _
      · rw [commitAt_eq_done hlt hvalid]
        exact keptIfRefused_done s _

/-- Submitting in turn is carried out once the check has passed. The induction is on the indices:
the check and the steps go through the same conversion segments. -/
theorem commitInTurn_of_checkCommits {candidates : List ℤ} :
    ∀ {turn : ℕ} {s : Segments}, checkCommits turn s.conversionSegments candidates = .ok () →
      ∃ t : Segments, s.commitInTurn candidates = t.done := by
  induction candidates with
  | nil => exact fun {_ s} _ ↦ ⟨s, rfl⟩
  | cons candidate candidates ih =>
    intro turn s hcheck
    rcases hsegments : s.conversionSegments with _ | ⟨first, rest⟩
    · simp [hsegments, checkCommits] at hcheck
    rw [hsegments, checkCommits] at hcheck
    split at hcheck
    case isFalse => simp at hcheck
    case isTrue hvalid =>
      have hstep := commitAt_historySize hsegments candidate .submitted
      rw [if_pos hvalid] at hstep
      rw [commitInTurn, firstPosition_of_cons hsegments]
      simp only [hstep, done]
      rw [← conversionSegments_submitted candidate] at hcheck
      exact ih hcheck

theorem keepsRefused_commitSegments (candidates : List ℤ) :
    KeepsRefused (·.commitSegments candidates) := by
  intro s
  simp only [commitSegments]
  split
  · exact keptIfRefused_refused s _
  · next hcheck =>
    obtain ⟨t, hturn⟩ := commitInTurn_of_checkCommits hcheck
    rw [hturn]
    exact keptIfRefused_done s t

theorem keepsRefused_focusSegment (segment : UInt64) (candidate : ℤ) :
    KeepsRefused (·.focusSegment segment candidate) := by
  intro s
  simp only [focusSegment]
  split
  · exact keptIfRefused_refused s _
  · split
    · exact keptIfRefused_done s _
    · exact keptIfRefused_refused s _

/-! ### Moving boundaries -/

theorem keepsRefused_freeSegment (segment : UInt64) : KeepsRefused (·.freeSegment segment) := by
  intro s
  simp only [freeSegment]
  split
  · exact keptIfRefused_refused s _
  · split
    · exact keptIfRefused_refused s _
    · exact keptIfRefused_done s _

theorem keepsRefused_resizeSegment (segment : UInt64) (offset : ℤ) :
    KeepsRefused (·.resizeSegment segment offset) := by
  intro s
  simp only [resizeSegment]
  -- Each check refuses in `s`; the two leaves behind them are carried out.
  repeat' split
  all_goals first
    | exact keptIfRefused_refused s _
    | exact keptIfRefused_done s _

theorem keepsRefused_resizeSegments (start : UInt64) (count : ℕ) (sizes : List UInt8) :
    KeepsRefused (·.resizeSegments start count sizes) := by
  intro s
  simp only [resizeSegments]
  repeat' split
  all_goals first
    | exact keptIfRefused_refused s _
    | exact keptIfRefused_done s _

theorem keepsRefused_reconstructHistory (precedingText : String) :
    KeepsRefused (·.reconstructHistory precedingText) := by
  intro s
  simp only [reconstructHistory]
  split
  · exact keptIfRefused_refused s _
  · exact keptIfRefused_done s _

/-- A refused transition leaves the segments as they were. -/
theorem keepsRefused_apply (transition : Transition) : KeepsRefused transition.apply := by
  cases transition with
  | commitSegment segment candidate => exact keepsRefused_commitSegment segment candidate
  | commitPartially segment candidate current new =>
    exact keepsRefused_commitPartially segment candidate current new
  | commitSegments candidates => exact keepsRefused_commitSegments candidates
  | focusSegment segment candidate => exact keepsRefused_focusSegment segment candidate
  | freeSegment segment => exact keepsRefused_freeSegment segment
  | resizeSegment segment offset => exact keepsRefused_resizeSegment segment offset
  | resizeSegments start count sizes => exact keepsRefused_resizeSegments start count sizes
  | reconstructHistory precedingText => exact keepsRefused_reconstructHistory precedingText

end Segments

namespace Converter

/-- The operations of a converter, with their arguments. -/
inductive Operation
  | startConversion (key : String)
  | startConversionForRequest
  | startPrediction (key : String)
  | startSuggestion (key : String)
  | commitSegment (segment : UInt64) (candidate : ℤ)
  | resizeSegment (segment : UInt64) (offset : ℤ)
  | resizeSegments (start : UInt64) (count : ℕ) (sizes : List UInt8)
  | freeSegment (segment : UInt64)

/-- The outcome of an operation in a state. -/
def Operation.apply (c : Converter) (request : ConversionRequest) :
    Operation → Segments → Outcome
  | .startConversion key, s => c.startConversion request s key
  | .startConversionForRequest, s => c.startConversionForRequest request s
  | .startPrediction key, s => c.startPrediction request s key
  | .startSuggestion key, s => c.startSuggestion request s key
  | .commitSegment segment candidate, s => c.commitSegment s segment candidate
  | .resizeSegment segment offset, s => c.resizeSegment request s segment offset
  | .resizeSegments start count sizes, s => c.resizeSegments request s start count sizes
  | .freeSegment segment, s => c.freeSegment request s segment

/-- The index of the segment that an operation is for. -/
def Operation.index? : Operation → Option UInt64
  | .commitSegment segment _ | .resizeSegment segment _ | .resizeSegments segment _ _
  | .freeSegment segment => some segment
  | .startConversion _ | .startConversionForRequest => none
  | .startPrediction _ | .startSuggestion _ => none

variable (c : Converter) (request : ConversionRequest)

/-- Converting after a transition refuses no more than the transition does. -/
theorem keptIfRefused_thenConvert {s : Segments} {outcome : Outcome}
    (hkept : KeptIfRefused s outcome) : KeptIfRefused s (c.thenConvert request outcome) := by
  rcases outcome with ⟨t, e | _⟩
  · exact hkept
  · exact Segments.keptIfRefused_done s _

theorem keepsRefused_startConversion (key : String) :
    KeepsRefused (c.startConversion request · key) := by
  intro s
  simp only [startConversion]
  split
  · exact Segments.keptIfRefused_refused s _
  · exact Segments.keptIfRefused_done s _

theorem keepsRefused_startConversionForRequest :
    KeepsRefused (c.startConversionForRequest request) := by
  intro s
  rw [startConversionForRequest]
  split
  · exact Segments.keptIfRefused_refused s _
  · exact c.keepsRefused_startConversion request _ s

theorem keepsRefused_predict (type : RequestType) (key : String) :
    KeepsRefused (c.predict request type · key) := by
  intro s
  simp only [predict]
  split
  · exact Segments.keptIfRefused_refused s _
  · exact Segments.keptIfRefused_done s _

/-- A refused operation leaves the segments as they were. -/
theorem keepsRefused_operation (operation : Operation) :
    KeepsRefused (operation.apply c request) := by
  cases operation with
  | startConversion key => exact c.keepsRefused_startConversion request key
  | startConversionForRequest => exact c.keepsRefused_startConversionForRequest request
  | startPrediction key => exact c.keepsRefused_predict request .prediction key
  | startSuggestion key => exact c.keepsRefused_predict request .suggestion key
  | commitSegment segment candidate => exact Segments.keepsRefused_commitSegment segment candidate
  | resizeSegment segment offset =>
    exact fun s ↦ c.keptIfRefused_thenConvert request
      (Segments.keepsRefused_resizeSegment segment offset s)
  | resizeSegments start count sizes =>
    exact fun s ↦ c.keptIfRefused_thenConvert request
      (Segments.keepsRefused_resizeSegments start count sizes s)
  | freeSegment segment =>
    exact fun s ↦ c.keptIfRefused_thenConvert request
      (Segments.keepsRefused_freeSegment segment s)

end Converter

/-- A refused transition of the segments, and a refused operation of any converter under any
request, hands back the state it was given, equal in every field. -/
theorem refused_unchanged :
    (∀ transition : Segments.Transition, KeepsRefused transition.apply) ∧
      ∀ (c : Converter) (request : ConversionRequest) (operation : Converter.Operation),
        KeepsRefused (operation.apply c request) :=
  ⟨Segments.keepsRefused_apply, Converter.keepsRefused_operation⟩

/-- Where the second of two indices addresses nothing, the first segment is not submitted either. -/
theorem refused_unchanged_second_index :
    let s : Segments :=
      (Segments.empty.pushBack ((Segment.new "か" .free).pushBack (.new "か" "蚊"))).pushBack
        (.new "な" .fixedBoundary)
    (s.commitSegments [0, 1]).2 = .error (.candidateOutOfRange 1 1) ∧
      (s.commitSegments [0, 1]).1 = s := by
  intro s
  have hrefused : (s.commitSegments [0, 1]).2 = .error (.candidateOutOfRange 1 1) := by decide
  refine ⟨hrefused, ?_⟩
  exact refused_unchanged.1 (.commitSegments [0, 1]) s _ _ (Prod.ext rfl hrefused)

end KanaKanji
