import Mathlib
import KanaKanji.Proofs.Conversion.Regions

/-!
# Transitions that are carried out

A transition that is carried out passed all its checks, and it changes the segments in one way only.
For each transition there is one lemma that says so of the position that its index stands for:
which checks hold, and what the segments are afterwards (`exists_position_of_commitSegment` and the
others). As long as the position does not wrap around (`CountsOn`), it is that of a conversion
segment, and the history stays in front of what is changed (`commitSegment_eq_done` and the others).
Two changes have names of their own: the segments from one whose end is moved on (`moved`), and a
row of segments that is cut anew (`recut`). Choosing, freeing and resizing are carried out whenever
the checks hold (`exists_commitSegment_eq_done` and the others).

Submitting several segments in turn takes the first conversion segment each time. What one such
submission keeps, all of them keep (`holds_commitSegments`).
-/

set_option autoImplicit false

namespace KanaKanji.Segments

variable {s t : Segments}

/-! ### Checks -/

theorem requireType_eq_ok_iff {type : RequestType} :
    s.requireType type = .ok () ↔ s.requestType = type := by
  rw [requireType]
  split
  · next htype => simp [htype]
  · next htype => simp [htype]

theorem done_inj : s.done = t.done ↔ s = t := by
  simp [done]

theorem refused_ne_done (e : SegmentsError) : s.refused e ≠ t.done := by
  simp [refused, done]

/-- The segment that a transition reads at the position of an index. -/
theorem getElem?_position {i : UInt64} {position : ℕ} (hposition : s.position i = .ok position) :
    s.segments[position]? = some (s.segments.getD position default) := by
  obtain ⟨hlt, rfl⟩ := position_eq_ok_iff_countOn.mp hposition
  rw [List.getD_eq_getElem?_getD, List.getElem?_eq_getElem hlt, Option.getD_some]

/-- Where the position does not wrap around, it is that of a conversion segment. -/
theorem getElem?_conversionSegments {i : UInt64} {position : ℕ} {segment : Segment}
    (hcounts : s.CountsOn i) (hposition : s.position i = .ok position)
    (hsegment : s.segments[position]? = some segment) :
    position = s.historySize + i.toNat ∧ s.conversionSegments[i.toNat]? = some segment := by
  obtain ⟨-, rfl⟩ := (position_eq_ok_iff hcounts).mp hposition
  rw [getElem?_historySize_add] at hsegment
  exact ⟨rfl, hsegment⟩

/-- A conversion segment that exists has a position. -/
theorem position_of_getElem? {i : UInt64} {segment : Segment} (hcounts : s.CountsOn i)
    (hsegment : s.conversionSegments[i.toNat]? = some segment) :
    s.position i = .ok (s.historySize + i.toNat) :=
  (position_eq_ok_iff hcounts).mpr ⟨(List.getElem?_eq_some_iff.mp hsegment).1, rfl⟩

/-! ### Choosing values -/

theorem exists_position_of_commitSegment {i : UInt64} {candidate : ℤ}
    (hdone : s.commitSegment i candidate = t.done) :
    ∃ position segment, s.position i = .ok position ∧ s.segments[position]? = some segment ∧
      segment.isValidIndex candidate = true ∧
      t = s.modify position (chosen · candidate .fixedValue) := by
  rw [commitSegment] at hdone
  split at hdone
  · exact absurd hdone (refused_ne_done _)
  next position hposition =>
  have hsegment := getElem?_position hposition
  rw [commitAt_of_getElem? hsegment] at hdone
  split at hdone
  · next hvalid => exact ⟨position, _, hposition, hsegment, hvalid, (done_inj.mp hdone).symm⟩
  · exact absurd hdone (refused_ne_done _)

theorem commitSegment_eq_done {i : UInt64} {candidate : ℤ} (hcounts : s.CountsOn i)
    (hdone : s.commitSegment i candidate = t.done) :
    ∃ segment, s.conversionSegments[i.toNat]? = some segment ∧
      segment.isValidIndex candidate = true ∧
      t = s.withConversion (s.conversionSegments.modify i.toNat
        (chosen · candidate .fixedValue)) := by
  obtain ⟨position, segment, hposition, hsegment, hvalid, rfl⟩ :=
    exists_position_of_commitSegment hdone
  obtain ⟨rfl, hconversion⟩ := getElem?_conversionSegments hcounts hposition hsegment
  exact ⟨segment, hconversion, hvalid, modify_historySize_add _ _⟩

/-- A candidate that a segment has can be chosen. -/
theorem commitSegment_of_position {i : UInt64} {position : ℕ} {segment : Segment} {candidate : ℤ}
    (hposition : s.position i = .ok position) (hsegment : s.segments[position]? = some segment)
    (hvalid : segment.isValidIndex candidate = true) :
    s.commitSegment i candidate = done (s.modify position (chosen · candidate .fixedValue)) := by
  rw [commitSegment, hposition]
  exact (commitAt_of_getElem? hsegment _ _).trans (if_pos hvalid)

theorem exists_commitSegment_eq_done {i : UInt64} {segment : Segment} {candidate : ℤ}
    (hcounts : s.CountsOn i) (hsegment : s.conversionSegments[i.toNat]? = some segment)
    (hvalid : segment.isValidIndex candidate = true) :
    ∃ t, s.commitSegment i candidate = done t := by
  have hposition := position_of_getElem? hcounts hsegment
  rw [← getElem?_historySize_add] at hsegment
  exact ⟨_, commitSegment_of_position hposition hsegment hvalid⟩

theorem exists_position_of_focusSegment {i : UInt64} {candidate : ℤ}
    (hdone : s.focusSegment i candidate = t.done) :
    ∃ position segment ranked, s.position i = .ok position ∧
      s.segments[position]? = some segment ∧ segment.move? candidate 0 = some ranked ∧
      t = s.modify position fun _ ↦ ranked := by
  rw [focusSegment] at hdone
  split at hdone
  · exact absurd hdone (refused_ne_done _)
  next position hposition =>
  split at hdone
  · next ranked hmove =>
    exact ⟨position, _, ranked, hposition, getElem?_position hposition, hmove,
      (done_inj.mp hdone).symm⟩
  · exact absurd hdone (refused_ne_done _)

theorem focusSegment_eq_done {i : UInt64} {candidate : ℤ} (hcounts : s.CountsOn i)
    (hdone : s.focusSegment i candidate = t.done) :
    ∃ segment ranked, s.conversionSegments[i.toNat]? = some segment ∧
      segment.move? candidate 0 = some ranked ∧
      t = s.withConversion (s.conversionSegments.modify i.toNat fun _ ↦ ranked) := by
  obtain ⟨position, segment, ranked, hposition, hsegment, hmove, rfl⟩ :=
    exists_position_of_focusSegment hdone
  obtain ⟨rfl, hconversion⟩ := getElem?_conversionSegments hcounts hposition hsegment
  exact ⟨segment, ranked, hconversion, hmove, modify_historySize_add _ _⟩

theorem exists_position_of_freeSegment {i : UInt64} (hdone : s.freeSegment i = t.done) :
    s.requestType = .conversion ∧ ∃ position, s.position i = .ok position ∧
      t = s.modify position fun segment ↦ { segment with type := .free } := by
  rw [freeSegment] at hdone
  split at hdone
  · exact absurd hdone (refused_ne_done _)
  next htype =>
  split at hdone
  · exact absurd hdone (refused_ne_done _)
  next position hposition =>
  exact ⟨requireType_eq_ok_iff.mp htype, position, hposition, (done_inj.mp hdone).symm⟩

theorem freeSegment_eq_done {i : UInt64} (hcounts : s.CountsOn i)
    (hdone : s.freeSegment i = t.done) :
    s.requestType = .conversion ∧ i.toNat < s.conversionSize ∧
      t = s.withConversion (s.conversionSegments.modify i.toNat fun segment ↦
        { segment with type := .free }) := by
  obtain ⟨htype, position, hposition, rfl⟩ := exists_position_of_freeSegment hdone
  obtain ⟨hlt, rfl⟩ := (position_eq_ok_iff hcounts).mp hposition
  exact ⟨htype, hlt, modify_historySize_add _ _⟩

/-- A conversion segment can always be freed. -/
theorem freeSegment_of_lt {i : UInt64} (hcounts : s.CountsOn i)
    (htype : s.requestType = .conversion) (hlt : i.toNat < s.conversionSize) :
    s.freeSegment i = done (s.withConversion (s.conversionSegments.modify i.toNat fun segment ↦
      { segment with type := .free })) := by
  rw [freeSegment, requireType_eq_ok_iff.mpr htype,
    (position_eq_ok_iff hcounts).mpr ⟨hlt, rfl⟩, ← modify_historySize_add]

/-- An index whose position wraps around stands for a segment of the history, and freeing it is not
refused for that. The history then ends in front of that segment, and the conversion begins with
it. -/
theorem freeSegment_of_wraps {i : UInt64} (hsize : s.historySize < UInt64.size)
    (hwraps : ¬ s.CountsOn i) (htype : s.requestType = .conversion) :
    ∃ t segment, s.freeSegment i = done t ∧ s.segments[s.countOn i]? = some segment ∧
      t.historySegments = s.historySegments.take (s.countOn i) ∧
      t.conversionSegments =
        { segment with type := .free } :: s.segments.drop (s.countOn i + 1) := by
  have hhistory := countOn_lt_historySize hsize hwraps
  have hlt : s.countOn i < s.segments.length := by
    rw [length_segments]
    omega
  have hsegment := List.getElem?_eq_getElem hlt
  have hdone : s.freeSegment i =
      done (s.modify (s.countOn i) fun segment ↦ { segment with type := .free }) := by
    rw [freeSegment, requireType_eq_ok_iff.mpr htype, position_eq_ok_iff_countOn.mpr ⟨hlt, rfl⟩]
  exact ⟨_, _, hdone, hsegment, regions_of_take_append hhistory.le
    (Lists.modify_eq_append hsegment) fun first hmem ↦ Option.some.inj hmem ▸ rfl⟩

/-- The submitted front part of a segment with the chosen candidate. -/
def submittedPart (segment : Segment) (candidate : ℤ) (current : String) : Segment :=
  shortened (chosen segment candidate .submitted) current

theorem committed_submittedPart (segment : Segment) (candidate : ℤ) (current : String) :
    committed (submittedPart segment candidate current) = true := by
  rw [submittedPart, shortened, committed, Segment.modifyCandidate]
  split <;> rfl

theorem exists_position_of_commitPartially {i : UInt64} {candidate : ℤ} {current new : String}
    (hdone : s.commitPartially i candidate current new = t.done) :
    ∃ position segment, s.position i = .ok position ∧ s.segments[position]? = some segment ∧
      segment.isValidIndex candidate = true ∧ splitsKey segment.key current new = true ∧
      t = { s with
        segments := s.segments.take position ++
          submittedPart segment candidate current :: .new new .free ::
            s.segments.drop (position + 1) } := by
  simp only [commitPartially] at hdone
  split at hdone
  · exact absurd hdone (refused_ne_done _)
  next position hposition =>
  have hsegment := getElem?_position hposition
  generalize s.segments.getD position default = segment at hdone hsegment
  rw [commitAt_of_getElem? hsegment] at hdone
  by_cases hvalid : segment.isValidIndex candidate
  case neg =>
    rw [if_pos (by simp [hvalid])] at hdone
    exact absurd hdone (refused_ne_done _)
  rw [if_neg (by simp [hvalid]), if_pos hvalid] at hdone
  split at hdone
  · exact absurd hdone (refused_ne_done _)
  next hsplits =>
  refine ⟨position, segment, hposition, hsegment, hvalid, by simpa using hsplits, ?_⟩
  rw [← done_inj.mp hdone]
  simp only [modify, List.modify_modify_eq, Lists.insertIdx_modify hsegment]
  rfl

theorem commitPartially_eq_done {i : UInt64} {candidate : ℤ} {current new : String}
    (hcounts : s.CountsOn i) (hdone : s.commitPartially i candidate current new = t.done) :
    ∃ segment, s.conversionSegments[i.toNat]? = some segment ∧
      segment.isValidIndex candidate = true ∧ splitsKey segment.key current new = true ∧
      t = s.withConversion (s.conversionSegments.take i.toNat ++
        submittedPart segment candidate current :: .new new .free ::
          s.conversionSegments.drop (i.toNat + 1)) := by
  obtain ⟨position, segment, hposition, hsegment, hvalid, hsplits, rfl⟩ :=
    exists_position_of_commitPartially hdone
  obtain ⟨rfl, hconversion⟩ := getElem?_conversionSegments hcounts hposition hsegment
  refine ⟨segment, hconversion, hvalid, hsplits, ?_⟩
  rw [take_historySize_add, Nat.add_assoc, drop_historySize_add, withConversion, List.append_assoc]

/-- What each submission of the first conversion segment keeps, several in turn keep. The induction
is on the candidates. -/
theorem holds_commitInTurn {p : Segments → Prop}
    (hsubmit : ∀ (s : Segments) first rest candidate, p s → s.conversionSegments = first :: rest →
      p (s.withConversion (chosen first candidate .submitted :: rest)))
    (hs : p s) (candidates : List ℤ) : p (s.commitInTurn candidates).1 := by
  induction candidates generalizing s with
  | nil => exact hs
  | cons candidate candidates ih =>
    rw [commitInTurn]
    split
    · exact hs
    next position hposition =>
    obtain ⟨hpos, rfl⟩ := firstPosition_eq_ok_iff.mp hposition
    obtain ⟨first, rest, hconversion⟩ := List.exists_cons_of_length_pos hpos
    rw [commitAt_historySize hconversion]
    by_cases hvalid : first.isValidIndex candidate
    · rw [if_pos hvalid]
      exact ih (hsubmit s first rest candidate hs hconversion)
    · rw [if_neg hvalid]
      exact hs

theorem holds_commitSegments {p : Segments → Prop}
    (hsubmit : ∀ (s : Segments) first rest candidate, p s → s.conversionSegments = first :: rest →
      p (s.withConversion (chosen first candidate .submitted :: rest)))
    (hs : p s) (candidates : List ℤ) : p (s.commitSegments candidates).1 := by
  rw [commitSegments]
  split
  · exact hs
  · exact holds_commitInTurn hsubmit hs candidates

/-! ### Moving boundaries -/

/-- A segment and those behind it once its end was moved by so many characters. -/
def moved (segment : Segment) (following : List Segment) (offset : ℤ) : List Segment :=
  if 0 < offset then grown segment following offset.toNat
  else shrunk segment following (segment.keyLength + offset).toNat

theorem exists_position_of_resizeSegment {i : UInt64} {offset : ℤ}
    (hdone : s.resizeSegment i offset = t.done) :
    s.requestType = .conversion ∧ offset ≠ 0 ∧
      ∃ position segment, s.position i = .ok position ∧ s.segments[position]? = some segment ∧
        0 < segment.keyLength + offset ∧
        offset ≤ (keyOf (s.segments.drop (position + 1))).length ∧
        t = { s with
          segments := s.segments.take position ++
            moved segment (s.segments.drop (position + 1)) offset
          resized := true } := by
  rw [resizeSegment] at hdone
  split at hdone
  · exact absurd hdone (refused_ne_done _)
  next htype =>
  split at hdone
  · exact absurd hdone (refused_ne_done _)
  next hoffset =>
  split at hdone
  · exact absurd hdone (refused_ne_done _)
  next position hposition =>
  have hsegment := getElem?_position hposition
  generalize s.segments.getD position default = segment at hdone hsegment
  dsimp only at hdone
  split at hdone
  · exact absurd hdone (refused_ne_done _)
  split at hdone
  · exact absurd hdone (refused_ne_done _)
  next hkept =>
  split at hdone
  · exact absurd hdone (refused_ne_done _)
  next hreach =>
  refine ⟨requireType_eq_ok_iff.mp htype, hoffset, position, segment, hposition, hsegment,
    by omega, by omega, ?_⟩
  rw [moved]
  split at hdone
  · next hgrows => rw [← done_inj.mp hdone, if_pos hgrows]
  · next hshrinks => rw [← done_inj.mp hdone, if_neg hshrinks]

theorem resizeSegment_eq_done {i : UInt64} {offset : ℤ} (hcounts : s.CountsOn i)
    (hdone : s.resizeSegment i offset = t.done) :
    s.requestType = .conversion ∧ offset ≠ 0 ∧
      ∃ segment, s.conversionSegments[i.toNat]? = some segment ∧
        0 < segment.keyLength + offset ∧
        offset ≤ (keyOf (s.conversionSegments.drop (i.toNat + 1))).length ∧
        t = { s.withConversion (s.conversionSegments.take i.toNat ++
                moved segment (s.conversionSegments.drop (i.toNat + 1)) offset) with
              resized := true } := by
  obtain ⟨htype, hoffset, position, segment, hposition, hsegment, hkept, hreach, rfl⟩ :=
    exists_position_of_resizeSegment hdone
  obtain ⟨rfl, hconversion⟩ := getElem?_conversionSegments hcounts hposition hsegment
  rw [Nat.add_assoc, drop_historySize_add] at hreach
  refine ⟨htype, hoffset, segment, hconversion, hkept, hreach, ?_⟩
  rw [take_historySize_add, Nat.add_assoc, drop_historySize_add, withConversion, List.append_assoc]

/-- The end of a segment can be moved as far as the characters reach on either side, if one is left
to the segment. -/
theorem exists_resizeSegment_of_position {i : UInt64} {position : ℕ} {offset : ℤ}
    {segment : Segment} (htype : s.requestType = .conversion) (hoffset : offset ≠ 0)
    (hposition : s.position i = .ok position) (hsegment : s.segments[position]? = some segment)
    (hkept : 0 < segment.keyLength + offset)
    (hreach : offset ≤ (keyOf (s.segments.drop (position + 1))).length) :
    ∃ t, s.resizeSegment i offset = done t := by
  have htarget := getElem?_position hposition
  rw [hsegment] at htarget
  obtain rfl := Option.some.inj htarget
  have hfollowing : ¬ (0 < offset ∧ s.segments.drop (position + 1) = []) := by
    rintro ⟨hgrows, hlast⟩
    rw [hlast] at hreach
    exact absurd hreach (not_le.mpr hgrows)
  rw [resizeSegment, requireType_eq_ok_iff.mpr htype, hposition]
  dsimp only
  rw [if_neg hoffset, if_neg hfollowing, if_neg (by omega), if_neg (by omega)]
  split
  · exact ⟨_, rfl⟩
  · exact ⟨_, rfl⟩

/-- Moving the end of the segment at a position that wraps around is not refused for that either,
and ends the history in front of this segment. -/
theorem resizeSegment_of_wraps {i : UInt64} {offset : ℤ} {segment : Segment}
    (hsize : s.historySize < UInt64.size) (hwraps : ¬ s.CountsOn i)
    (htype : s.requestType = .conversion) (hoffset : offset ≠ 0)
    (hsegment : s.segments[s.countOn i]? = some segment) (hkept : 0 < segment.keyLength + offset)
    (hreach : offset ≤ (keyOf (s.segments.drop (s.countOn i + 1))).length) :
    ∃ t, s.resizeSegment i offset = done t ∧
      t.historySegments = s.historySegments.take (s.countOn i) ∧
      t.conversionSegments = moved segment (s.segments.drop (s.countOn i + 1)) offset := by
  have hhistory := countOn_lt_historySize hsize hwraps
  have hlt := (List.getElem?_eq_some_iff.mp hsegment).1
  have hposition := position_eq_ok_iff_countOn.mpr ⟨hlt, rfl⟩
  obtain ⟨t, hdone⟩ :=
    exists_resizeSegment_of_position htype hoffset hposition hsegment hkept hreach
  obtain ⟨-, -, position, target, hsame, htarget, -, -, rfl⟩ :=
    exists_position_of_resizeSegment hdone
  obtain rfl := Except.ok.inj (hposition.symm.trans hsame)
  obtain rfl := Option.some.inj (hsegment.symm.trans htarget)
  refine ⟨_, hdone, regions_of_take_append hhistory.le rfl fun first hmem ↦ ?_⟩
  rw [moved] at hmem
  split at hmem
  · exact Option.some.inj hmem ▸ rfl
  · exact Option.some.inj hmem ▸ rfl

theorem exists_resizeSegment_eq_done {i : UInt64} {offset : ℤ} {segment : Segment}
    (hcounts : s.CountsOn i) (htype : s.requestType = .conversion) (hoffset : offset ≠ 0)
    (hsegment : s.conversionSegments[i.toNat]? = some segment)
    (hkept : 0 < segment.keyLength + offset)
    (hreach : offset ≤ (keyOf (s.conversionSegments.drop (i.toNat + 1))).length) :
    ∃ t, s.resizeSegment i offset = done t := by
  have hposition := position_of_getElem? hcounts hsegment
  rw [← getElem?_historySize_add] at hsegment
  rw [← drop_historySize_add, ← Nat.add_assoc] at hreach
  exact exists_resizeSegment_of_position htype hoffset hposition hsegment hkept hreach

/-- The segments that a row of segments is cut into anew. -/
def recut (row : List Segment) (sizes : List UInt8) : List Segment :=
  (cutBySizes (sizes.map UInt8.toNat) (keyOf row).toList).map fun piece ↦
    .new (String.ofList piece) .fixedBoundary

theorem exists_position_of_resizeSegments {start : UInt64} {count : ℕ} {sizes : List UInt8}
    (hdone : s.resizeSegments start count sizes = t.done) :
    s.requestType = .conversion ∧ 0 < count ∧ sizes.length ≤ maxSizes ∧
      ∃ first, s.position start = .ok first ∧ first + count ≤ s.segments.length ∧
        keyOf ((s.segments.drop first).take count) ≠ "" ∧
        t = { s with
          segments := s.segments.take first ++ recut ((s.segments.drop first).take count) sizes ++
            s.segments.drop (first + count)
          resized := true } := by
  rw [resizeSegments] at hdone
  split at hdone
  · exact absurd hdone (refused_ne_done _)
  next htype =>
  split at hdone
  · exact absurd hdone (refused_ne_done _)
  next first hposition =>
  split at hdone
  · exact absurd hdone (refused_ne_done _)
  next hrange =>
  split at hdone
  · exact absurd hdone (refused_ne_done _)
  next hsizes =>
  dsimp only at hdone
  split at hdone
  · exact absurd hdone (refused_ne_done _)
  next hkey =>
  refine ⟨requireType_eq_ok_iff.mp htype, by omega, by omega, first, hposition, by omega,
    fun hempty ↦ ?_, ?_⟩
  · exact hkey (by rw [hempty]; rfl)
  · rw [← done_inj.mp hdone]
    rfl

theorem resizeSegments_eq_done {start : UInt64} {count : ℕ} {sizes : List UInt8}
    (hcounts : s.CountsOn start) (hdone : s.resizeSegments start count sizes = t.done) :
    s.requestType = .conversion ∧ 0 < count ∧ start.toNat + count ≤ s.conversionSize ∧
      sizes.length ≤ maxSizes ∧ keyOf ((s.conversionSegments.drop start.toNat).take count) ≠ "" ∧
      t = { s.withConversion (s.conversionSegments.take start.toNat ++
              (recut ((s.conversionSegments.drop start.toNat).take count) sizes ++
                s.conversionSegments.drop (start.toNat + count))) with resized := true } := by
  obtain ⟨htype, hcount, hsizes, first, hposition, hrange, hkey, rfl⟩ :=
    exists_position_of_resizeSegments hdone
  obtain ⟨-, rfl⟩ := (position_eq_ok_iff hcounts).mp hposition
  rw [drop_historySize_add] at hkey
  rw [length_segments] at hrange
  refine ⟨htype, hcount, by omega, hsizes, hkey, ?_⟩
  rw [take_historySize_add, Nat.add_assoc, drop_historySize_add, drop_historySize_add,
    withConversion]
  simp only [List.append_assoc]

/-- A row of segments with a key can be cut anew. -/
theorem exists_resizeSegments_of_position {start : UInt64} {count first : ℕ} {sizes : List UInt8}
    (htype : s.requestType = .conversion) (hcount : 0 < count) (hsizes : sizes.length ≤ maxSizes)
    (hposition : s.position start = .ok first) (hrange : first + count ≤ s.segments.length)
    (hkey : keyOf ((s.segments.drop first).take count) ≠ "") :
    ∃ t, s.resizeSegments start count sizes = done t := by
  have hchars : ¬ (keyOf ((s.segments.drop first).take count)).toList.isEmpty := by
    rw [List.isEmpty_iff, String.toList_eq_nil_iff]
    exact hkey
  rw [resizeSegments, requireType_eq_ok_iff.mpr htype, hposition]
  dsimp only
  rw [if_neg (by omega), if_neg (by omega), if_neg hchars]
  exact ⟨_, rfl⟩

theorem exists_resizeSegments_eq_done {start : UInt64} {count : ℕ} {sizes : List UInt8}
    (hcounts : s.CountsOn start) (htype : s.requestType = .conversion) (hcount : 0 < count)
    (hrange : start.toNat + count ≤ s.conversionSize) (hsizes : sizes.length ≤ maxSizes)
    (hkey : keyOf ((s.conversionSegments.drop start.toNat).take count) ≠ "") :
    ∃ t, s.resizeSegments start count sizes = done t := by
  have hlt : start.toNat < s.conversionSize := by omega
  have hposition := (position_eq_ok_iff hcounts).mpr ⟨hlt, rfl⟩
  rw [← drop_historySize_add] at hkey
  refine exists_resizeSegments_of_position htype hcount hsizes hposition ?_ hkey
  rw [length_segments]
  omega

end KanaKanji.Segments
