import Mathlib
import KanaKanji.Proofs.Conversion.Boundaries
import KanaKanji.Proofs.Conversion.Filled
import KanaKanji.Proofs.Conversion.Refusal

/-!
# Committed segments stand first

A state is well laid out if no committed segment stands behind one that is not, so that all of them
are history (`wellLaidOut_iff`). This module goes through the changes that a user or a client can
ask for (`Step`) and shows which of them keep a state well laid out.

All do but one, where no position wraps around. Submitting the front part of a segment puts a
committed segment at its place, and the segments before that place stay open: only for the first
conversion segment is this the end of the history (`wellLaidOut_commitPartially_iff`). A text that
is submitted behind an open segment does not count as history, and giving up the conversion loses it
(`cancelConversion_loses_submitted`). An index whose position wraps around can open a segment in the
middle of the history (`wellLaidOut_freeSegment_of_wraps`).
-/

set_option autoImplicit false

namespace KanaKanji.Segments

variable {s t : Segments}

/-- No committed segment stands behind one that is not. -/
def WellLaidOut (s : Segments) : Prop :=
  s.segments.Pairwise fun before behind ↦ committed behind = true → committed before = true

instance (s : Segments) : Decidable s.WellLaidOut :=
  inferInstanceAs (Decidable (List.Pairwise _ s.segments))

/-! ### A committed front and an open back -/

theorem wellLaidOut_of_append (front back : List Segment) (hsegments : s.segments = front ++ back)
    (hfront : ∀ segment ∈ front, committed segment = true)
    (hback : ∀ segment ∈ back, committed segment = false) : s.WellLaidOut := by
  rw [WellLaidOut, hsegments, List.pairwise_append]
  refine ⟨?_, ?_, fun before hbefore _ _ _ ↦ hfront before hbefore⟩
  · exact List.pairwise_of_forall_mem_list fun before hbefore _ _ _ ↦ hfront before hbefore
  · refine List.pairwise_of_forall_mem_list fun _ _ behind hbehind hcommitted ↦ ?_
    rw [hback behind hbehind] at hcommitted
    exact absurd hcommitted Bool.false_ne_true

/-- In a state that is well laid out, all conversion segments are open. -/
theorem wellLaidOut_iff :
    s.WellLaidOut ↔ ∀ segment ∈ s.conversionSegments, committed segment = false := by
  constructor
  · intro hs
    rw [WellLaidOut, ← history_append_conversion] at hs
    have hpairs := (List.pairwise_append.mp hs).2.1
    rcases hconversion : s.conversionSegments with _ | ⟨first, rest⟩
    · exact fun segment hmem ↦ absurd hmem List.not_mem_nil
    have hfirst : committed first = false := s.open_of_mem_head? (by rw [hconversion]; rfl)
    intro segment hmem
    rcases List.mem_cons.mp hmem with rfl | hmem
    · exact hfirst
    · rw [hconversion, List.pairwise_cons] at hpairs
      by_contra hcommitted
      rw [Bool.not_eq_false] at hcommitted
      have := hpairs.1 segment hmem hcommitted
      rw [hfirst] at this
      exact Bool.false_ne_true this
  · exact fun hopen ↦ wellLaidOut_of_append _ _ (history_append_conversion s).symm
      (fun _ ↦ committed_of_mem_history s) hopen

theorem wellLaidOut_withConversion {segments : List Segment}
    (hopen : ∀ segment ∈ segments, committed segment = false) :
    (s.withConversion segments).WellLaidOut :=
  wellLaidOut_of_append _ _ rfl (fun _ ↦ committed_of_mem_history s) hopen

/-- A transition that was refused changed nothing, so that only the others have to be looked at. -/
theorem wellLaidOut_of_done (hs : s.WellLaidOut) {outcome : Outcome}
    (hkept : KeptIfRefused s outcome) (hdone : ∀ t, outcome = done t → t.WellLaidOut) :
    outcome.1.WellLaidOut :=
  holds_of_done hs hkept hdone

/-! ### Open segments -/

theorem open_of_mem_absorb {count : ℕ} {segments : List Segment}
    (hopen : ∀ segment ∈ segments, committed segment = false) :
    ∀ segment ∈ (absorb count segments).2, committed segment = false :=
  forall_mem_absorb (fun _ _ _ htype ↦ by rcases htype with rfl | rfl <;> rfl) hopen count

theorem open_of_mem_moved {target : Segment} {following : List Segment} (offset : ℤ)
    (hopen : ∀ segment ∈ following, committed segment = false) :
    ∀ segment ∈ moved target following offset, committed segment = false := by
  intro segment hmem
  rw [moved] at hmem
  split at hmem
  · rw [grown] at hmem
    rcases List.mem_cons.mp hmem with rfl | hmem
    · rfl
    · exact open_of_mem_absorb hopen segment hmem
  · unfold shrunk at hmem
    rcases List.mem_cons.mp hmem with rfl | hmem
    · rfl
    rcases following with _ | ⟨next, rest⟩
    · rw [List.mem_singleton.mp hmem]
      rfl
    · rcases List.mem_cons.mp hmem with rfl | hmem
      · rfl
      · exact hopen segment (List.mem_cons_of_mem _ hmem)

/-- The segments stay open when the end of one of them is moved. -/
theorem open_of_mem_take_moved {segments : List Segment}
    (hopen : ∀ segment ∈ segments, committed segment = false) (i : ℕ) (target : Segment)
    (offset : ℤ) : ∀ segment ∈ segments.take i ++ moved target (segments.drop (i + 1)) offset,
      committed segment = false := by
  refine List.forall_mem_append.mpr ⟨?_, open_of_mem_moved offset ?_⟩
  · exact fun segment hmem ↦ hopen segment (List.mem_of_mem_take hmem)
  · exact fun segment hmem ↦ hopen segment (List.mem_of_mem_drop hmem)

/-- The segments stay open when a row of them is cut anew. -/
theorem open_of_mem_take_recut {segments : List Segment}
    (hopen : ∀ segment ∈ segments, committed segment = false) (start stop : ℕ)
    (row : List Segment) (sizes : List UInt8) :
    ∀ segment ∈ segments.take start ++ (recut row sizes ++ segments.drop stop),
      committed segment = false := by
  refine List.forall_mem_append.mpr ⟨?_, List.forall_mem_append.mpr ⟨?_, ?_⟩⟩
  · exact fun segment hmem ↦ hopen segment (List.mem_of_mem_take hmem)
  · intro segment hmem
    obtain ⟨piece, -, rfl⟩ := List.mem_map.mp hmem
    rfl
  · exact fun segment hmem ↦ hopen segment (List.mem_of_mem_drop hmem)

/-! ### Transitions -/

theorem toNat_pos {i : UInt64} (hi : i ≠ 0) : 0 < i.toNat :=
  Nat.pos_of_ne_zero fun hzero ↦ hi (UInt64.toNat_inj.mp hzero)

namespace WellLaidOut

variable {i : UInt64} (hs : s.WellLaidOut) (hcounts : s.CountsOn i)

include hs hcounts

theorem commitSegment (candidate : ℤ) : (s.commitSegment i candidate).1.WellLaidOut := by
  refine wellLaidOut_of_done hs (keepsRefused_commitSegment i candidate s) fun t hdone ↦ ?_
  obtain ⟨segment, -, -, rfl⟩ := commitSegment_eq_done hcounts hdone
  exact wellLaidOut_withConversion
    (Lists.forall_mem_modify (wellLaidOut_iff.mp hs) fun _ _ ↦ rfl)

theorem focusSegment (candidate : ℤ) : (s.focusSegment i candidate).1.WellLaidOut := by
  refine wellLaidOut_of_done hs (keepsRefused_focusSegment i candidate s) fun t hdone ↦ ?_
  obtain ⟨segment, ranked, hsegment, hmove, rfl⟩ := focusSegment_eq_done hcounts hdone
  refine wellLaidOut_withConversion
    (Lists.forall_mem_modify (wellLaidOut_iff.mp hs) fun _ _ ↦ ?_)
  rw [committed, (Segment.key_of_move? hmove).2]
  exact wellLaidOut_iff.mp hs segment (List.mem_of_getElem? hsegment)

theorem freeSegment : (s.freeSegment i).1.WellLaidOut := by
  refine wellLaidOut_of_done hs (keepsRefused_freeSegment i s) fun t hdone ↦ ?_
  obtain ⟨-, -, rfl⟩ := freeSegment_eq_done hcounts hdone
  exact wellLaidOut_withConversion
    (Lists.forall_mem_modify (wellLaidOut_iff.mp hs) fun _ _ ↦ rfl)

theorem resizeSegment (offset : ℤ) : (s.resizeSegment i offset).1.WellLaidOut := by
  refine wellLaidOut_of_done hs (keepsRefused_resizeSegment i offset s) fun t hdone ↦ ?_
  obtain ⟨-, -, segment, -, -, -, rfl⟩ := resizeSegment_eq_done hcounts hdone
  exact wellLaidOut_withConversion
    (open_of_mem_take_moved (wellLaidOut_iff.mp hs) i.toNat segment offset)

theorem resizeSegments (count : ℕ) (sizes : List UInt8) :
    (s.resizeSegments i count sizes).1.WellLaidOut := by
  refine wellLaidOut_of_done hs (keepsRefused_resizeSegments i count sizes s) fun t hdone ↦ ?_
  obtain ⟨-, -, -, -, -, rfl⟩ := resizeSegments_eq_done hcounts hdone
  exact wellLaidOut_withConversion (open_of_mem_take_recut (wellLaidOut_iff.mp hs) _ _ _ _)

end WellLaidOut

/-- A first conversion segment that is submitted extends the history. -/
theorem WellLaidOut.commitSegments (hs : s.WellLaidOut) (candidates : List ℤ) :
    (s.commitSegments candidates).1.WellLaidOut := by
  refine holds_commitSegments (fun t first rest candidate ht hconversion ↦ ?_) hs candidates
  have hopen := wellLaidOut_iff.mp ht
  rw [hconversion] at hopen
  refine wellLaidOut_of_append (t.historySegments ++ [chosen first candidate .submitted]) rest ?_
    (List.forall_mem_append.mpr ⟨fun _ ↦ committed_of_mem_history t, ?_⟩)
    fun segment hmem ↦ hopen segment (List.mem_cons_of_mem _ hmem)
  · rw [withConversion, List.append_assoc]
    rfl
  · exact List.forall_mem_singleton.mpr rfl

/-- Submitting the front part of the first conversion segment extends the history. Of any later
segment it puts a committed segment behind the first conversion segment, which is open. -/
theorem wellLaidOut_commitPartially_iff (hs : s.WellLaidOut) {i : UInt64} {candidate : ℤ}
    {current new : String} (hcounts : s.CountsOn i)
    (hdone : s.commitPartially i candidate current new = t.done) : t.WellLaidOut ↔ i = 0 := by
  obtain ⟨segment, hsegment, -, -, rfl⟩ := commitPartially_eq_done hcounts hdone
  have hopen := wellLaidOut_iff.mp hs
  have hsubmitted := committed_submittedPart segment candidate current
  constructor
  · intro hlayout
    by_contra hbehind
    rw [WellLaidOut, withConversion, List.pairwise_append, List.pairwise_append] at hlayout
    rcases hconversion : s.conversionSegments with _ | ⟨first, rest⟩
    · simp [hconversion] at hsegment
    have hfirst : first ∈ s.conversionSegments.take i.toNat := by
      rw [hconversion, List.take_cons (toNat_pos hbehind)]
      exact List.mem_cons_self
    have hcommitted := hlayout.2.1.2.2 first hfirst _ List.mem_cons_self hsubmitted
    rw [hopen first (List.mem_of_mem_take hfirst)] at hcommitted
    exact Bool.false_ne_true hcommitted
  · rintro rfl
    refine wellLaidOut_of_append (s.historySegments ++ [submittedPart segment candidate current])
      (.new new .free :: s.conversionSegments.drop (0 + 1)) ?_
      (List.forall_mem_append.mpr ⟨fun _ ↦ committed_of_mem_history s, ?_⟩)
      (List.forall_mem_cons.mpr ⟨rfl, fun other hmem ↦ hopen other (List.mem_of_mem_drop hmem)⟩)
    · rw [withConversion, UInt64.toNat_zero, List.take_zero, List.nil_append, List.append_assoc]
      rfl
    · exact fun other hmem ↦ List.mem_singleton.mp hmem ▸ hsubmitted

theorem wellLaidOut_of_committed
    (hcommitted : ∀ segment ∈ s.segments, committed segment = true) : s.WellLaidOut :=
  wellLaidOut_of_append _ _ (List.append_nil _).symm hcommitted
    fun _ hmem ↦ absurd hmem List.not_mem_nil

theorem wellLaidOut_reconstructHistory (hs : s.WellLaidOut) (precedingText : String) :
    (s.reconstructHistory precedingText).1.WellLaidOut := by
  refine wellLaidOut_of_done hs (keepsRefused_reconstructHistory precedingText s) fun t hdone ↦ ?_
  rw [reconstructHistory] at hdone
  split at hdone
  · exact absurd hdone (refused_ne_done _)
  · rw [← done_inj.mp hdone]
    refine wellLaidOut_of_committed fun segment hmem ↦ ?_
    rw [List.mem_singleton.mp hmem]
    rfl

/-! ### Steps -/

/-- The changes that a user or a client can ask for, with their arguments. -/
inductive Step
  | setKey (key : String)
  | setKeyValue (key value : String)
  | cancelConversion
  | resetConversion
  | revertConversion
  | finishConversion
  | transition (change : Transition)

/-- The state after a step; a transition that is refused counts as a step too. -/
def Step.apply : Step → Segments → Segments
  | .setKey key, s => s.setKey key
  | .setKeyValue key value, s => s.setKeyValue key value
  | .cancelConversion, s => s.cancelConversion
  | .resetConversion, s => s.resetConversion
  | .revertConversion, s => s.revertConversion
  | .finishConversion, s => s.finishConversion
  | .transition change, s => (change.apply s).1

/-- The index of the segment that a step is for. -/
def Step.index? : Step → Option UInt64
  | .transition change => change.index?
  | _ => none

/-- Whether a step submits the front part of a segment with an open one before it. -/
def Step.SubmitsBehindOpen (s : Segments) : Step → Prop
  | .transition (.commitPartially segment candidate current new) =>
    segment ≠ 0 ∧ ∃ t, s.commitPartially segment candidate current new = done t
  | _ => False

/-- All transitions but one keep a state well laid out whenever they are carried out. -/
theorem wellLaidOut_transition_iff (hs : s.WellLaidOut) {change : Transition}
    (hcounts : ∀ i ∈ change.index?, s.CountsOn i) :
    (change.apply s).1.WellLaidOut ↔ ¬ (Step.transition change).SubmitsBehindOpen s := by
  cases change with
  | commitSegment i candidate =>
    exact iff_of_true (hs.commitSegment (hcounts i rfl) candidate) not_false
  | commitSegments candidates => exact iff_of_true (hs.commitSegments candidates) not_false
  | focusSegment i candidate =>
    exact iff_of_true (hs.focusSegment (hcounts i rfl) candidate) not_false
  | freeSegment i => exact iff_of_true (hs.freeSegment (hcounts i rfl)) not_false
  | resizeSegment i offset =>
    exact iff_of_true (hs.resizeSegment (hcounts i rfl) offset) not_false
  | resizeSegments start count sizes =>
    exact iff_of_true (hs.resizeSegments (hcounts start rfl) count sizes) not_false
  | reconstructHistory text =>
    exact iff_of_true (wellLaidOut_reconstructHistory hs text) not_false
  | commitPartially i candidate current new =>
    simp only [Transition.apply, Step.SubmitsBehindOpen]
    rcases houtcome : s.commitPartially i candidate current new with ⟨t, e | ⟨⟩⟩
    · have hkept : t = s := keepsRefused_commitPartially i candidate current new s t e houtcome
      refine iff_of_true (hkept ▸ hs) ?_
      rintro ⟨-, t', hdone⟩
      simp [done] at hdone
    · rw [wellLaidOut_commitPartially_iff hs (hcounts i rfl) houtcome]
      exact ⟨fun hfirst hbehind ↦ hbehind.1 hfirst,
        fun hnever ↦ by_contra fun hbehind ↦ hnever ⟨hbehind, t, rfl⟩⟩

/-- A step keeps a state well laid out, with one exception, where its index, counted on from the
history, does not pass the greatest 64-bit number. -/
theorem wellLaidOut_apply_iff (hs : s.WellLaidOut) (step : Step)
    (hcounts : ∀ i ∈ step.index?, s.CountsOn i) :
    (step.apply s).WellLaidOut ↔ ¬ step.SubmitsBehindOpen s := by
  have hcleared : s.clearConversion.WellLaidOut :=
    wellLaidOut_of_committed fun _ ↦ committed_of_mem_history s
  cases step with
  | setKey key =>
    refine iff_of_true ?_ not_false
    exact wellLaidOut_of_append _ _ rfl (fun _ ↦ committed_of_mem_history s)
      (List.forall_mem_singleton.mpr rfl)
  | setKeyValue key value =>
    refine iff_of_true ?_ not_false
    exact wellLaidOut_of_append _ _ rfl (fun _ ↦ committed_of_mem_history s)
      (List.forall_mem_singleton.mpr rfl)
  | cancelConversion => exact iff_of_true hcleared not_false
  | resetConversion => exact iff_of_true hcleared not_false
  | revertConversion => exact iff_of_true hcleared not_false
  | finishConversion =>
    refine iff_of_true (wellLaidOut_of_committed fun segment hmem ↦ ?_) not_false
    obtain ⟨former, -, rfl⟩ := List.mem_map.mp hmem
    rfl
  | transition change => exact wellLaidOut_transition_iff hs hcounts

/-- Submitting a part of the first conversion segment keeps the history in front. -/
theorem wellLaidOut_apply_iff_first_part :
    let s : Segments :=
      (Segments.empty.pushBack ((Segment.new "わたしは" .free).pushBack (.new "わたし" "私"))).pushBack
        (.new "なまえを" .free)
    let step := Step.transition (.commitPartially 0 0 "わたし" "は")
    s.WellLaidOut ∧ (∀ i ∈ step.index?, s.CountsOn i) ∧ (step.apply s).WellLaidOut := by
  intro s step
  have hs : s.WellLaidOut := by decide
  have hcounts : ∀ i ∈ step.index?, s.CountsOn i := by
    intro i hi
    obtain rfl : 0 = i := Option.some.inj hi
    decide
  exact ⟨hs, hcounts, (wellLaidOut_apply_iff hs step hcounts).mpr fun hbehind ↦ hbehind.1 rfl⟩

/-- Submitting a part of the second conversion segment leaves the first one open before it. -/
theorem exists_commitPartially_not_wellLaidOut :
    let s : Segments :=
      (Segments.empty.pushBack (.new "わたしは" .free)).pushBack
        ((Segment.new "なまえを" .free).pushBack (.new "なまえ" "名前"))
    let step := Step.transition (.commitPartially 1 0 "なまえ" "を")
    s.WellLaidOut ∧ ¬ (step.apply s).WellLaidOut := by
  decide

/-- Freed at an index whose position wraps around, the last segment of the history keeps a state
well laid out, and any other leaves committed segments behind it. -/
theorem wellLaidOut_freeSegment_of_wraps (hs : s.WellLaidOut) {i : UInt64}
    (hsize : s.historySize < UInt64.size) (hwraps : ¬ s.CountsOn i)
    (htype : s.requestType = .conversion) :
    ∃ t, s.freeSegment i = done t ∧ (t.WellLaidOut ↔ s.countOn i + 1 = s.historySize) := by
  obtain ⟨t, segment, hdone, -, -, hconversion⟩ := freeSegment_of_wraps hsize hwraps htype
  have hlt := countOn_lt_historySize hsize hwraps
  have hbehind : s.segments.drop (s.countOn i + 1) =
      s.historySegments.drop (s.countOn i + 1) ++ s.conversionSegments := by
    rw [← history_append_conversion s]
    exact List.drop_append_of_le_length hlt
  refine ⟨t, hdone, ?_⟩
  rw [wellLaidOut_iff, hconversion, hbehind]
  constructor
  · intro hopen
    refine le_antisymm hlt (not_lt.mp fun hmore ↦ ?_)
    have hnext := List.getElem_mem (l := s.historySegments.drop (s.countOn i + 1)) (n := 0)
      (by rw [List.length_drop]; exact Nat.sub_pos_of_lt hmore)
    have hcommitted := committed_of_mem_history s (List.mem_of_mem_drop hnext)
    rw [hopen _ (List.mem_cons_of_mem _ (List.mem_append_left _ hnext))] at hcommitted
    exact absurd hcommitted Bool.false_ne_true
  · intro hlast
    rw [hlast, historySize, List.drop_length, List.nil_append, List.forall_mem_cons]
    exact ⟨rfl, wellLaidOut_iff.mp hs⟩

example :
    let s : Segments :=
      { empty with segments := [.new "あ" .history, .new "い" .history, .new "う" .free] }
    ¬ (s.freeSegment 18446744073709551614).1.WellLaidOut := by
  decide

/-! ### What is lost -/

/-- What is submitted behind an open segment is not part of the history, so it does not outlive the
conversion. -/
theorem cancelConversion_loses_submitted (hs : s.WellLaidOut) {i : UInt64} {candidate : ℤ}
    {current new : String} (hcounts : s.CountsOn i) (hbehind : i ≠ 0)
    (hdone : s.commitPartially i candidate current new = t.done) :
    t.cancelConversion.segments = s.historySegments := by
  obtain ⟨segment, hsegment, -, -, rfl⟩ := commitPartially_eq_done hcounts hdone
  have hopen := wellLaidOut_iff.mp hs
  rcases hconversion : s.conversionSegments with _ | ⟨first, rest⟩
  · simp [hconversion] at hsegment
  have hfirst := hopen first (hconversion ▸ List.mem_cons_self)
  rw [List.take_cons (toNat_pos hbehind), List.cons_append]
  exact historySegments_withConversion fun segment hmem ↦ Option.some.inj hmem ▸ hfirst

end KanaKanji.Segments
