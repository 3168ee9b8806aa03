import Mathlib
import KanaKanji.Proofs.Conversion.Conservation
import KanaKanji.Proofs.Conversion.Layout

/-!
# The history only grows

What was committed stays as it was and in its order. Every step of a user but two, and every
operation of a converter, leaves the history in front of the history afterwards
(`history_append_only`), and so do any number of them one after another (`extended_session`), as
long as no position wraps around: an index that does stands for a segment of the history
(`freeSegment_shortens_history`). The two exceptions mean to replace the history: one makes it up
from a text, the other finishes the conversion.

The history is not stored apart. It is read off the types of the segments, so that a segment of any
kind may join it, and a state may hold committed segments behind open ones. But the committed
segments in front stay the history of whatever is put behind them (`extended_of_append`), and no
step touches those.

Finishing keeps the last segments, as many as the limit allows, and makes all of them history
(`exists_segments_finishConversion`).
-/

set_option autoImplicit false

namespace KanaKanji

namespace Segments

variable {s t u : Segments}

/-- A state whose history begins with the history of another. -/
def Extended (s t : Segments) : Prop := s.historySegments <+: t.historySegments

theorem Extended.refl (s : Segments) : s.Extended s :=
  List.prefix_rfl

theorem Extended.trans (hst : s.Extended t) (htu : t.Extended u) : s.Extended u :=
  List.IsPrefix.trans hst htu

/-- Whatever is put behind the history, the history stays in front. -/
theorem extended_of_append (more : List Segment)
    (hsegments : t.segments = s.historySegments ++ more) : s.Extended t := by
  have hhistory : t.historySegments = s.historySegments ++ more.takeWhile committed := by
    rw [historySegments, hsegments,
      List.takeWhile_append_of_pos fun _ ↦ committed_of_mem_history s]
  rw [Extended, hhistory]
  exact List.prefix_append _ _

theorem extended_withConversion (s : Segments) (segments : List Segment) :
    s.Extended (s.withConversion segments) :=
  extended_of_append segments rfl

/-! ### Steps -/

theorem Rearranged.extended (hst : s.Rearranged t) : s.Extended t := by
  rw [Extended, hst.historySegments_eq]

/-- The first conversion segment joins the history when it is submitted. -/
theorem extended_commitSegments (candidates : List ℤ) (s : Segments) :
    s.Extended (s.commitSegments candidates).1 := by
  refine holds_commitSegments (fun t first rest candidate ht _ ↦ ?_) (.refl s) candidates
  exact ht.trans (t.extended_withConversion _)

theorem extended_commitPartially {i : UInt64} (hcounts : s.CountsOn i) (candidate : ℤ)
    (current new : String) : s.Extended (s.commitPartially i candidate current new).1 := by
  refine holds_of_done (.refl s) (keepsRefused_commitPartially i candidate current new s)
    fun t hdone ↦ ?_
  obtain ⟨segment, -, -, -, rfl⟩ := commitPartially_eq_done hcounts hdone
  exact s.extended_withConversion _

/-- The steps that go on with the conversion. Of the others, finishing keeps the last segments only,
and a history that is made up from a text takes the place of all of them. -/
def Step.Continues : Step → Prop
  | .finishConversion => False
  | .transition (.reconstructHistory _) => False
  | _ => True

theorem extended_transition {change : Transition}
    (hcontinues : (Step.transition change).Continues)
    (hcounts : ∀ i ∈ change.index?, s.CountsOn i) :
    s.Extended (change.apply s).1 := by
  have hrearranged : change.WithinConversion → s.Extended (change.apply s).1 := fun hwithin ↦
    (rearranged_apply hwithin hcounts).extended
  cases change with
  | commitPartially i candidate current new =>
    exact extended_commitPartially (hcounts i rfl) candidate current new
  | commitSegments candidates => exact extended_commitSegments candidates s
  | reconstructHistory text => exact hcontinues.elim
  | _ => exact hrearranged trivial

theorem extended_step {step : Step} (hcontinues : step.Continues)
    (hcounts : ∀ i ∈ step.index?, s.CountsOn i) : s.Extended (step.apply s) := by
  have hcleared : s.Extended s.clearConversion := extended_of_append [] (List.append_nil _).symm
  cases step with
  | setKey key => exact extended_of_append [_] rfl
  | setKeyValue key value => exact extended_of_append [_] rfl
  | cancelConversion => exact hcleared
  | resetConversion => exact hcleared
  | revertConversion => exact hcleared
  | finishConversion => exact hcontinues.elim
  | transition change => exact extended_transition hcontinues hcounts

/-! ### Finishing -/

/-- The last segments, as many as the limit allows, are kept and become history. -/
theorem exists_segments_finishConversion (s : Segments) :
    ∃ kept, kept <:+ s.segments ∧ kept.length = min s.segments.length s.maxHistorySegments ∧
      s.finishConversion.segments = kept.map fun segment ↦ { segment with type := .history } := by
  refine ⟨s.segments.drop (s.segments.length - s.maxHistorySegments), List.drop_suffix _ _, ?_, rfl⟩
  rw [List.length_drop]
  omega

theorem type_of_mem_finishConversion {segment : Segment}
    (hmem : segment ∈ s.finishConversion.segments) : segment.type = .history := by
  obtain ⟨former, -, rfl⟩ := List.mem_map.mp hmem
  rfl

theorem conversionSegments_finishConversion (s : Segments) :
    s.finishConversion.conversionSegments = [] := by
  refine List.dropWhile_eq_nil_iff.mpr fun segment hmem ↦ ?_
  rw [committed, type_of_mem_finishConversion hmem]
  rfl

/-- Finishing changes nothing where no segment is too many and all are history already. -/
theorem finishConversion_eq_self (hlength : s.segments.length ≤ s.maxHistorySegments)
    (htype : ∀ segment ∈ s.segments, segment.type = .history) (hrevert : s.revertEntries = [])
    (hresized : s.resized = false) : s.finishConversion = s := by
  have hsame : s.segments.map (fun segment ↦ { segment with type := .history }) = s.segments := by
    refine (List.map_congr_left fun segment hmem ↦ ?_).trans (List.map_id _)
    rw [← htype segment hmem, id]
  rw [finishConversion, Nat.sub_eq_zero_of_le hlength, List.drop_zero, hsame, ← hrevert, ← hresized]

theorem finishConversion_finishConversion (s : Segments) :
    s.finishConversion.finishConversion = s.finishConversion := by
  refine finishConversion_eq_self ?_ (fun _ ↦ type_of_mem_finishConversion) rfl rfl
  obtain ⟨kept, -, hlength, hsegments⟩ := s.exists_segments_finishConversion
  rw [hsegments, List.length_map, hlength]
  exact min_le_right _ _

end Segments

namespace Converter

variable (c : Converter) (request : ConversionRequest) (s : Segments)

theorem extended_convert : s.Extended (c.convert request s) :=
  s.extended_withConversion _

variable {s} in
theorem extended_thenConvert {outcome : Outcome} (houtcome : s.Extended outcome.1) :
    s.Extended (c.thenConvert request outcome).1 := by
  rcases outcome with ⟨t, e | ⟨⟩⟩
  · exact houtcome
  · exact houtcome.trans (c.extended_convert request t)

theorem extended_startConversion (key : String) :
    s.Extended (c.startConversion request s key).1 := by
  rw [startConversion]
  split
  · exact .refl s
  · have hkey : s.Extended { s.setKey key with requestType := .conversion } :=
      Segments.extended_of_append [_] rfl
    exact hkey.trans (c.extended_convert request _)

theorem extended_predict (type : RequestType) (key : String) :
    s.Extended (c.predict request type s key).1 := by
  rw [predict]
  split
  · exact .refl s
  · exact Segments.extended_of_append [_] rfl

variable {s} in
theorem extended_operation {operation : Operation}
    (hcounts : ∀ i ∈ operation.index?, s.CountsOn i) :
    s.Extended (operation.apply c request s).1 := by
  cases operation with
  | startConversion key => exact c.extended_startConversion request s key
  | startConversionForRequest =>
    rw [Operation.apply, startConversionForRequest]
    split
    · exact .refl s
    · exact c.extended_startConversion request s _
  | startPrediction key => exact c.extended_predict request s .prediction key
  | startSuggestion key => exact c.extended_predict request s .suggestion key
  | commitSegment i candidate =>
    exact (Segments.rearranged_commitSegment (hcounts i rfl) candidate).extended
  | resizeSegment i offset =>
    exact c.extended_thenConvert request
      (Segments.rearranged_resizeSegment (hcounts i rfl) offset).extended
  | resizeSegments start count sizes =>
    exact c.extended_thenConvert request
      (Segments.rearranged_resizeSegments (hcounts start rfl) count sizes).extended
  | freeSegment i =>
    exact c.extended_thenConvert request (Segments.rearranged_freeSegment (hcounts i rfl)).extended

end Converter

/-! ### Sessions -/

/-- What happens to a state in a session: a step, or an operation of a converter under a request. -/
inductive Action
  | step (step : Segments.Step)
  | operation (c : Converter) (request : ConversionRequest) (operation : Converter.Operation)

/-- The state after an action, carried out or refused. -/
def Action.apply : Action → Segments → Segments
  | .step change, s => change.apply s
  | .operation c request requested, s => (requested.apply c request s).1

/-- The actions that go on with the conversion. -/
def Action.Continues : Action → Prop
  | .step change => change.Continues
  | .operation _ _ _ => True

/-- The index of the segment that an action is for. -/
def Action.index? : Action → Option UInt64
  | .step change => change.index?
  | .operation _ _ requested => requested.index?

theorem extended_action {action : Action} {s : Segments} (hcontinues : action.Continues)
    (hcounts : ∀ i ∈ action.index?, s.CountsOn i) : s.Extended (action.apply s) := by
  cases action with
  | step change => exact Segments.extended_step hcontinues hcounts
  | operation c request requested => exact c.extended_operation request hcounts

/-- As long as the conversion goes on, the history at any time begins with the history before. -/
theorem extended_session {actions : List Action} {s : Segments}
    (hcontinue : Segments.Throughout Action.apply
      (fun s action ↦ action.Continues ∧ ∀ i ∈ action.index?, s.CountsOn i) s actions) :
    s.Extended (actions.foldl (fun s action ↦ action.apply s) s) := by
  induction actions generalizing s with
  | nil => exact .refl s
  | cons action actions ih =>
    obtain ⟨⟨hcontinues, hcounts⟩, hrest⟩ := hcontinue
    exact (extended_action hcontinues hcounts).trans (ih hrest)

end KanaKanji
