import Mathlib
import KanaKanji.Proofs.Conversion.Accepted
import KanaKanji.Proofs.Conversion.Refusal

/-!
# Submitting several segments

`commitSegments` first follows the submissions without carrying them out: it goes from one open
segment to the next. Then it submits the first conversion segment again and again. Carried out this
way, each submission makes the history longer, past all committed segments that happen to stand
there, so that the first conversion segment is the next open one. So the `n`-th candidate belongs
to the `n`-th open segment (`NthOpen`), wherever committed segments stand, and the dry run passes
just if submitting in turn (`SubmitsInTurn`) is carried out at each step.

`commitSegments_in_turn` puts this together: when the submissions are carried out, what becomes of
each segment (`Segment.SubmittedAs`), and that the others stay.
-/

set_option autoImplicit false

namespace KanaKanji

/-! ### The chosen candidate -/

namespace Segment

/-- The candidates of a segment once one of them is ranked first. A meta candidate is copied. -/
def rankedFirst (s : Segment) (i : ℤ) (candidate : Candidate) : List Candidate :=
  candidate :: if i < 0 then s.candidates else s.candidates.eraseIdx i.toNat

theorem move?_zero {s : Segment} {i : ℤ} {candidate : Candidate}
    (hcandidate : s.candidate? i = some candidate) :
    s.move? i 0 = some { s with candidates := s.rankedFirst i candidate } := by
  rw [candidate?] at hcandidate
  split at hcandidate
  · next hmeta =>
    rw [move?, if_pos hmeta, candidate?, if_pos hmeta, hcandidate, rankedFirst, if_pos hmeta]
    rfl
  · next hrank =>
    obtain ⟨hlt, -⟩ := List.getElem?_eq_some_iff.mp hcandidate
    rw [move?, if_neg hrank, if_pos ⟨hlt, Nat.zero_lt_of_lt hlt⟩, moveElement, hcandidate,
      rankedFirst, if_neg hrank]
    rfl

/-- The segment was submitted with the candidate at an index: that one stands first, marked unless
it stood there before, the other candidates follow in their order, and key and meta candidates are
the same. -/
structure SubmittedAs (s : Segment) (i : ℤ) (after : Segment) : Prop where
  type_eq : after.type = .submitted
  key_eq : after.key = s.key
  metaCandidates_eq : after.metaCandidates = s.metaCandidates
  exists_candidate : ∃ candidate, s.candidate? i = some candidate ∧
    after.candidates =
      s.rankedFirst i (if i = 0 then candidate else candidate.withAttributes .reranked)

end Segment

namespace Segments

/-- The chosen candidate goes in front of the others, with a mark unless it was there. -/
theorem chosen_eq {segment : Segment} {i : ℤ} {candidate : Candidate}
    (hcandidate : segment.candidate? i = some candidate) (type : SegmentType) :
    chosen segment i type =
      { segment with
        type
        candidates := segment.rankedFirst i
          (if i = 0 then candidate else candidate.withAttributes .reranked) } := by
  rw [chosen, Segment.move?_zero hcandidate]
  split
  · rfl
  · rfl

theorem submittedAs_chosen {segment : Segment} {i : ℤ} (hvalid : segment.isValidIndex i = true) :
    segment.SubmittedAs i (chosen segment i .submitted) := by
  obtain ⟨candidate, hcandidate⟩ := Option.isSome_iff_exists.mp hvalid
  rw [chosen_eq hcandidate]
  exact ⟨rfl, rfl, rfl, candidate, hcandidate, rfl⟩

/-! ### One submission -/

variable {s t : Segments} {candidates : List ℤ}

/-- Submits the first conversion segment. -/
def submitFirst (s : Segments) (candidate : ℤ) : Outcome :=
  match s.firstPosition with
  | .error e => s.refused e
  | .ok position => s.commitAt position candidate .submitted

/-- The state is reached by submitting the first conversion segment once for each index, and each
time this is carried out. -/
inductive SubmitsInTurn : Segments → List ℤ → Segments → Prop
  | nil (s : Segments) : SubmitsInTurn s [] s
  | cons {s middle t : Segments} {candidate : ℤ} {candidates : List ℤ}
    (hfirst : s.submitFirst candidate = done middle) (hrest : SubmitsInTurn middle candidates t) :
    SubmitsInTurn s (candidate :: candidates) t

theorem submitFirst_eq_done_iff {candidate : ℤ} :
    s.submitFirst candidate = t.done ↔
      ∃ first rest, s.conversionSegments = first :: rest ∧
        first.isValidIndex candidate = true ∧
        t = s.withConversion (chosen first candidate .submitted :: rest) := by
  rw [submitFirst]
  rcases hconversion : s.conversionSegments with _ | ⟨first, rest⟩
  · have hnone : s.firstPosition = .error (.segmentOutOfRange 0) := by
      rw [firstPosition, checkPosition, if_neg]
      rw [length_segments, conversionSize, hconversion]
      exact Nat.lt_irrefl _
    simp [hnone, refused_ne_done]
  · simp only [firstPosition_of_cons hconversion, commitAt_historySize hconversion,
      List.cons.injEq]
    constructor
    · intro hdone
      split at hdone
      · next hvalid => exact ⟨first, rest, ⟨rfl, rfl⟩, hvalid, (done_inj.mp hdone).symm⟩
      · exact absurd hdone (refused_ne_done _)
    · rintro ⟨_, _, ⟨rfl, rfl⟩, hvalid, rfl⟩
      rw [if_pos hvalid]

theorem commitInTurn_eq_done_iff : s.commitInTurn candidates = t.done ↔
    SubmitsInTurn s candidates t := by
  induction candidates generalizing s with
  | nil =>
    rw [commitInTurn, done_inj]
    constructor
    · rintro rfl
      exact .nil s
    · rintro ⟨⟩
      rfl
  | cons candidate candidates ih =>
    have hrun : s.commitInTurn (candidate :: candidates) = t.done ↔
        ∃ middle, s.submitFirst candidate = done middle ∧
          middle.commitInTurn candidates = t.done := by
      rw [commitInTurn, submitFirst]
      rcases s.firstPosition with e | position
      · simp [refused_ne_done]
      · rcases hstep : s.commitAt position candidate .submitted with ⟨middle, e | _⟩
        · simp [hstep, done]
        · simp [hstep, done]
    rw [hrun]
    constructor
    · rintro ⟨middle, hfirst, hrest⟩
      exact .cons hfirst (ih.mp hrest)
    · rintro (_ | ⟨hfirst, hrest⟩)
      exact ⟨_, hfirst, ih.mpr hrest⟩

/-! ### The dry run -/

/-- The dry run passes where submitting in turn is carried out. The induction is on the
submissions: behind a submitted segment the dry run goes on at the first conversion segment of the
state that was reached. -/
theorem checkCommits_of_submitsInTurn (hturn : SubmitsInTurn s candidates t) :
    ∀ turn, checkCommits turn s.conversionSegments candidates = .ok () := by
  induction hturn with
  | nil s => exact fun _ ↦ rfl
  | @cons s middle t candidate candidates hfirst _ ih =>
    intro turn
    obtain ⟨first, rest, hconversion, hvalid, rfl⟩ := submitFirst_eq_done_iff.mp hfirst
    rw [hconversion, checkCommits, if_pos hvalid, ← conversionSegments_submitted candidate]
    exact ih _

theorem exists_submitsInTurn_iff : (∃ t, SubmitsInTurn s candidates t) ↔
    checkCommits 0 s.conversionSegments candidates = .ok () := by
  constructor
  · rintro ⟨t, hturn⟩
    exact checkCommits_of_submitsInTurn hturn 0
  · intro hcheck
    obtain ⟨t, hdone⟩ := commitInTurn_of_checkCommits hcheck
    exact ⟨t, commitInTurn_eq_done_iff.mp hdone⟩

theorem commitSegments_eq_done_iff : s.commitSegments candidates = t.done ↔
    SubmitsInTurn s candidates t := by
  rw [commitSegments]
  rcases hcheck : checkCommits 0 s.conversionSegments candidates with e | ⟨⟩
  · refine ⟨fun hdone ↦ absurd hdone (refused_ne_done e), fun hturn ↦ ?_⟩
    have hpassed := exists_submitsInTurn_iff.mp ⟨t, hturn⟩
    rw [hcheck] at hpassed
    exact absurd hpassed (by simp)
  · exact commitInTurn_eq_done_iff

/-! ### Open segments -/

/-- The segment at a position is open, and so many open segments stand before it. -/
structure NthOpen (s : Segments) (n position : ℕ) (segment : Segment) : Prop where
  getElem?_eq : s.segments[position]? = some segment
  isOpen : committed segment = false
  countP_take : (s.segments.take position).countP (!committed ·) = n

/-- Committed segments in front hold no open one. -/
theorem filter_open_dropWhile (segments : List Segment) :
    (segments.dropWhile committed).filter (!committed ·) = segments.filter (!committed ·) := by
  conv_rhs => rw [← List.takeWhile_append_dropWhile (p := committed) (l := segments)]
  have hfront : (segments.takeWhile committed).filter (!committed ·) = [] := by
    rw [List.filter_eq_nil_iff]
    intro segment hmem
    simp [List.mem_takeWhile_imp hmem]
  rw [List.filter_append, hfront, List.nil_append]

theorem getElem?_filter_open_iff {n : ℕ} {segment : Segment} :
    (s.segments.filter (!committed ·))[n]? = some segment ↔ ∃ j, s.NthOpen n j segment := by
  constructor
  · intro hfilter
    obtain ⟨j, hj, hopen, hcount⟩ := Lists.exists_getElem?_of_filter hfilter
    exact ⟨j, hj, by simpa using hopen, hcount⟩
  · rintro ⟨j, hj, hopen, rfl⟩
    exact Lists.getElem?_filter_countP hj (by simp [hopen])

/-- The dry run passes just if there is an open segment with a candidate for each index. -/
theorem checkCommits_eq_ok_iff {turn : ℕ} {segments : List Segment} :
    checkCommits turn (segments.dropWhile committed) candidates = .ok () ↔
      ∀ (n : ℕ) (candidate : ℤ), candidates[n]? = some candidate →
        ∃ segment, (segments.filter (!committed ·))[n]? = some segment ∧
          segment.isValidIndex candidate = true := by
  induction candidates generalizing turn segments with
  | nil => simp [checkCommits]
  | cons candidate candidates ih =>
    rw [← filter_open_dropWhile]
    rcases hsegments : segments.dropWhile committed with _ | ⟨first, rest⟩
    · simp only [checkCommits, reduceCtorEq, false_iff, not_forall]
      exact ⟨0, candidate, rfl, by simp⟩
    have hopen : committed first = false := by
      have hhead := List.head?_dropWhile_not committed segments
      rw [hsegments] at hhead
      simpa using hhead
    rw [checkCommits, List.filter_cons_of_pos (by simp [hopen])]
    constructor
    · intro hcheck
      split at hcheck
      case isFalse => exact absurd hcheck (by simp)
      case isTrue hvalid =>
        rintro (_ | n) other hother
        · obtain rfl := Option.some.inj hother
          exact ⟨first, rfl, hvalid⟩
        · exact ih.mp hcheck n other hother
    · intro hall
      obtain ⟨segment, hsegment, hvalid⟩ := hall 0 candidate rfl
      obtain rfl := Option.some.inj hsegment
      rw [if_pos hvalid, ih]
      exact fun n other hother ↦ hall (n + 1) other hother

/-! ### What is submitted -/

/-- What becomes of a segment with so many open segments before it. -/
def afterTurns (candidates : List ℤ) (turn : ℕ) (segment : Segment) : Segment :=
  if committed segment then segment
  else (candidates[turn]?).elim segment (chosen segment · .submitted)

/-- The first open segment takes the first index, and is then one of the committed segments that the
other indices pass over. The induction is on the committed segments in front. -/
theorem map_afterTurns_submitted {front rest : List Segment} {first : Segment}
    (hfront : ∀ segment ∈ front, committed segment = true) (hopen : committed first = false)
    (candidate : ℤ) (candidates : List ℤ) (j : ℕ) :
    (front ++ chosen first candidate .submitted :: rest)[j]?.map (afterTurns candidates
        (((front ++ chosen first candidate .submitted :: rest).take j).countP (!committed ·))) =
      (front ++ first :: rest)[j]?.map (afterTurns (candidate :: candidates)
        (((front ++ first :: rest).take j).countP (!committed ·))) := by
  have hsubmitted : committed (chosen first candidate .submitted) = true := rfl
  induction front generalizing j with
  | nil =>
    rw [List.nil_append, List.nil_append]
    cases j with
    | zero => simp [afterTurns, hopen, hsubmitted]
    | succ j =>
      rw [List.take_succ_cons, List.take_succ_cons, List.countP_cons_of_neg (by simp [hsubmitted]),
        List.countP_cons_of_pos (by simp [hopen])]
      rfl
  | cons segment front ih =>
    obtain ⟨hsegment, hfront⟩ := List.forall_mem_cons.mp hfront
    cases j with
    | zero => simp [afterTurns, hsegment]
    | succ j =>
      rw [List.cons_append, List.cons_append, List.take_succ_cons, List.take_succ_cons,
        List.countP_cons_of_neg (by simp [hsegment]), List.countP_cons_of_neg (by simp [hsegment])]
      exact ih hfront j

namespace SubmitsInTurn

/-- Each segment is treated by its place among the open ones. -/
theorem getElem?_segments (hturn : SubmitsInTurn s candidates t) (j : ℕ) :
    t.segments[j]? = s.segments[j]?.map
      (afterTurns candidates ((s.segments.take j).countP (!committed ·))) := by
  induction hturn with
  | nil s =>
    have hsame : afterTurns [] ((s.segments.take j).countP (!committed ·)) = id := by
      funext segment
      simp [afterTurns]
    rw [hsame, Option.map_id_apply]
  | @cons s middle t candidate candidates hfirst _ ih =>
    obtain ⟨first, rest, hconversion, -, rfl⟩ := submitFirst_eq_done_iff.mp hfirst
    have hhead : first ∈ s.conversionSegments.head? := by rw [hconversion]; rfl
    have hopen := open_of_mem_head? s hhead
    have hsegments : s.segments = s.historySegments ++ first :: rest := by
      rw [← hconversion, history_append_conversion]
    rw [ih, hsegments]
    exact map_afterTurns_submitted (fun _ ↦ committed_of_mem_history s) hopen candidate candidates j

/-- Nothing but the segments changes, and there are as many as before. -/
theorem eq_withSegments (hturn : SubmitsInTurn s candidates t) :
    t = { s with segments := t.segments } ∧ t.segments.length = s.segments.length := by
  induction hturn with
  | nil s => exact ⟨rfl, rfl⟩
  | @cons s middle t candidate candidates hfirst _ ih =>
    obtain ⟨first, rest, hconversion, -, rfl⟩ := submitFirst_eq_done_iff.mp hfirst
    refine ⟨ih.1, ih.2.trans ?_⟩
    rw [withConversion, ← history_append_conversion s, hconversion, List.length_append,
      List.length_append, List.length_cons, List.length_cons]

/-- Each submission makes the history longer. -/
theorem historySize_add_le (hturn : SubmitsInTurn s candidates t) :
    s.historySize + candidates.length ≤ t.historySize := by
  induction hturn with
  | nil s => exact le_rfl
  | @cons s middle t candidate candidates hfirst _ ih =>
    obtain ⟨first, rest, -, -, rfl⟩ := submitFirst_eq_done_iff.mp hfirst
    have hhistory : (s.withConversion (chosen first candidate .submitted :: rest)).historySize =
        s.historySize + ((rest.takeWhile committed).length + 1) := by
      rw [historySize, historySegments, withConversion,
        List.takeWhile_append_of_pos fun _ ↦ committed_of_mem_history s,
        List.takeWhile_cons_of_pos rfl, List.length_append, List.length_cons, historySize]
    rw [List.length_cons]
    omega

end SubmitsInTurn

/-- Several segments are submitted just if submitting the first conversion segment is carried out
for each index in turn, which is so if the `n`-th open segment has a candidate at the `n`-th index,
for all indices. Once the dry run has passed no submission is refused. The `n`-th open segment is
then submitted with its candidate, the history has at least as many segments more as there are
indices, and all other segments and all else in the state are the same. -/
theorem commitSegments_in_turn (s : Segments) (candidates : List ℤ) :
    ((∃ t, s.commitSegments candidates = done t) ↔ ∃ t, SubmitsInTurn s candidates t) ∧
    ((∃ t, s.commitSegments candidates = done t) ↔
      ∀ (n : ℕ) (candidate : ℤ), candidates[n]? = some candidate →
        ∃ j segment, s.NthOpen n j segment ∧ segment.isValidIndex candidate = true) ∧
    (checkCommits 0 s.conversionSegments candidates = .ok () →
      ∃ t, SubmitsInTurn s candidates t ∧ s.commitInTurn candidates = done t) ∧
    ∀ t, s.commitSegments candidates = done t →
      SubmitsInTurn s candidates t ∧
      t = { s with segments := t.segments } ∧
      t.segments.length = s.segments.length ∧
      s.historySize + candidates.length ≤ t.historySize ∧
      (∀ (n : ℕ) (candidate : ℤ), candidates[n]? = some candidate →
        ∃ j segment after, s.NthOpen n j segment ∧ t.segments[j]? = some after ∧
          segment.SubmittedAs candidate after) ∧
      ∀ j, (∀ n segment, s.NthOpen n j segment → candidates.length ≤ n) →
        t.segments[j]? = s.segments[j]? := by
  have hcriterion : (∃ t, s.commitSegments candidates = done t) ↔
      ∀ (n : ℕ) (candidate : ℤ), candidates[n]? = some candidate →
        ∃ j segment, s.NthOpen n j segment ∧ segment.isValidIndex candidate = true := by
    simp only [commitSegments_eq_done_iff]
    rw [exists_submitsInTurn_iff, conversionSegments, checkCommits_eq_ok_iff]
    refine forall₃_congr fun n candidate _ ↦ ?_
    simp only [getElem?_filter_open_iff]
    constructor
    · rintro ⟨segment, ⟨j, hj⟩, hvalid⟩
      exact ⟨j, segment, hj, hvalid⟩
    · rintro ⟨j, segment, hj, hvalid⟩
      exact ⟨segment, ⟨j, hj⟩, hvalid⟩
  refine ⟨by simp only [commitSegments_eq_done_iff], hcriterion, fun hcheck ↦ ?_,
    fun t hdone ↦ ?_⟩
  · obtain ⟨t, hturn⟩ := commitInTurn_of_checkCommits hcheck
    exact ⟨t, commitInTurn_eq_done_iff.mp hturn, hturn⟩
  have hturn := commitSegments_eq_done_iff.mp hdone
  refine ⟨hturn, hturn.eq_withSegments.1, hturn.eq_withSegments.2, hturn.historySize_add_le,
    fun n candidate hcandidate ↦ ?_, fun j hothers ↦ ?_⟩
  · obtain ⟨j, segment, hnth, hvalid⟩ := hcriterion.mp ⟨t, hdone⟩ n candidate hcandidate
    refine ⟨j, segment, _, hnth, ?_, submittedAs_chosen hvalid⟩
    rw [hturn.getElem?_segments, hnth.countP_take, hnth.getElem?_eq, Option.map_some, afterTurns,
      hnth.isOpen, hcandidate]
    rfl
  · rw [hturn.getElem?_segments]
    rcases hj : s.segments[j]? with _ | segment
    · rfl
    rw [Option.map_some, afterTurns]
    by_cases hcommitted : committed segment = true
    · rw [if_pos hcommitted]
    · have hnone := hothers _ segment ⟨hj, by simpa using hcommitted, rfl⟩
      rw [if_neg hcommitted, List.getElem?_eq_none hnone, Option.elim_none]

/-- Open segments with committed ones among them. -/
def scattered : Segments :=
  { empty with
    segments := [
      { key := "か", candidates := [.new "か" "蚊", .new "か" "課"] },
      .new "で" .submitted,
      .new "も" .history,
      { key := "な", type := .fixedBoundary, metaCandidates := [.new "な" "ナ"] },
      .new "は" .free] }

/-- The second candidate of the first open segment and the meta candidate of the next are submitted,
and the segment behind them stays as it is. -/
theorem commitSegments_in_turn_scattered :
    ∃ t, scattered.commitSegments [1, -1] = done t ∧ SubmitsInTurn scattered [1, -1] t ∧
      scattered.historySize + 2 ≤ t.historySize ∧ t.segments[4]? = some (.new "は" .free) := by
  have hdone : scattered.commitSegments [1, -1] = done (scattered.commitSegments [1, -1]).1 :=
    Prod.ext rfl (by decide)
  obtain ⟨hturn, -, -, hhistory, -, hothers⟩ :=
    (commitSegments_in_turn scattered [1, -1]).2.2.2 _ hdone
  refine ⟨_, hdone, hturn, hhistory, (hothers 4 fun n segment hnth ↦ ?_).trans (by decide)⟩
  rw [← hnth.countP_take]
  decide

end Segments

end KanaKanji
