import Mathlib
import KanaKanji.Conversion.Segments
import KanaKanji.Conversion.Transition
import KanaKanji.Proofs.Lists

/-!
# The two regions of a state

The segments of a state are its history followed by its conversion segments
(`history_append_conversion`), and a transition counts its positions from the end of the history.
This module says what that means for looking a segment up (`getElem?_historySize_add`) and for
changing the segment at a position (`segments_modify`), and how the conversion segments of a list
read whose front is committed (`conversionSegments_of_append`). A state with its history and other
conversion segments is `withConversion`.

The position of an index is a sum of 64-bit numbers. As long as it does not wrap around
(`CountsOn`), the index is that of a conversion segment (`position_eq_ok_iff`). Where it does wrap
around, there is no such conversion segment, but a segment of the history stands at the position
(`countOn_lt_historySize`): a transition is not refused then, and changes what was committed.
-/

set_option autoImplicit false

namespace KanaKanji.Segments

variable (s : Segments)

/-- The history and the conversion segments make up the segments. -/
theorem history_append_conversion : s.historySegments ++ s.conversionSegments = s.segments :=
  List.takeWhile_append_dropWhile

theorem committed_of_mem_history {segment : Segment} (hmem : segment ∈ s.historySegments) :
    committed segment = true :=
  List.mem_takeWhile_imp hmem

/-- The first conversion segment is the first segment that is not committed. -/
theorem open_of_mem_head? {segment : Segment} (hmem : segment ∈ s.conversionSegments.head?) :
    committed segment = false := by
  have hhead := List.head?_dropWhile_not committed s.segments
  rw [← conversionSegments, Option.mem_def.mp hmem] at hhead
  simpa using hhead

theorem length_segments : s.segments.length = s.historySize + s.conversionSize := by
  rw [← history_append_conversion, List.length_append, historySize, conversionSize]

/-- Counted from the end of the history, the segments are the conversion segments. -/
theorem getElem?_historySize_add (i : ℕ) :
    s.segments[s.historySize + i]? = s.conversionSegments[i]? := by
  conv_lhs => rw [← history_append_conversion]
  rw [historySize, List.getElem?_append_right (Nat.le_add_right _ _), Nat.add_sub_cancel_left]

theorem take_historySize_add (i : ℕ) :
    s.segments.take (s.historySize + i) = s.historySegments ++ s.conversionSegments.take i := by
  conv_lhs => rw [← history_append_conversion, historySize, List.take_length_add_append]

theorem drop_historySize_add (i : ℕ) :
    s.segments.drop (s.historySize + i) = s.conversionSegments.drop i := by
  conv_lhs => rw [← history_append_conversion, historySize, List.drop_length_add_append]

variable {s}

/-! ### Positions -/

theorem checkPosition_eq_ok_iff {position segment found : ℕ} :
    s.checkPosition position segment = .ok found ↔
      position < s.segments.length ∧ found = position := by
  rw [checkPosition]
  split
  · next hlt =>
    rw [Except.ok.injEq]
    exact ⟨fun heq ↦ ⟨hlt, heq.symm⟩, fun heq ↦ heq.2.symm⟩
  · next hge =>
    simp only [reduceCtorEq, false_iff, not_and]
    exact fun hlt ↦ absurd hlt hge

/-- The sum of the size of the history and an index is a 64-bit number, so that the position of the
index is this sum. -/
def CountsOn (s : Segments) (i : UInt64) : Prop := s.historySize + i.toNat < UInt64.size

instance (s : Segments) (i : UInt64) : Decidable (s.CountsOn i) :=
  inferInstanceAs (Decidable (_ < _))

theorem CountsOn.countOn_eq {i : UInt64} (hcounts : s.CountsOn i) :
    s.countOn i = s.historySize + i.toNat :=
  Nat.mod_eq_of_lt hcounts

theorem CountsOn.congr {s t : Segments} {i : UInt64} (hcounts : s.CountsOn i)
    (hhistory : t.historySegments = s.historySegments) : t.CountsOn i := by
  rw [CountsOn, historySize, hhistory]
  exact hcounts

/-- An index whose position wraps around stands for a segment of the history. -/
theorem countOn_lt_historySize {i : UInt64} (hsize : s.historySize < UInt64.size)
    (hwraps : ¬ s.CountsOn i) : s.countOn i < s.historySize := by
  have hi : i.toNat < UInt64.size := i.toNat_lt_size
  rw [CountsOn, not_lt] at hwraps
  rw [countOn, Nat.mod_eq_sub_mod hwraps, Nat.mod_eq_of_lt (by omega)]
  omega

/-- An index has a position just if a segment stands where it counts on to. -/
theorem position_eq_ok_iff_countOn {i : UInt64} {position : ℕ} :
    s.position i = .ok position ↔ s.countOn i < s.segments.length ∧ position = s.countOn i :=
  checkPosition_eq_ok_iff

/-- A conversion segment has a position just if it exists. -/
theorem position_eq_ok_iff {i : UInt64} {position : ℕ} (hcounts : s.CountsOn i) :
    s.position i = .ok position ↔
      i.toNat < s.conversionSize ∧ position = s.historySize + i.toNat := by
  rw [position_eq_ok_iff_countOn, hcounts.countOn_eq, length_segments, Nat.add_lt_add_iff_left]

theorem firstPosition_eq_ok_iff {position : ℕ} :
    s.firstPosition = .ok position ↔ 0 < s.conversionSize ∧ position = s.historySize := by
  rw [firstPosition, checkPosition_eq_ok_iff, length_segments, Nat.lt_add_right_iff_pos]

/-- The first position is that of the index zero, which cannot wrap around. -/
theorem position_zero (hsize : s.historySize < UInt64.size) : s.position 0 = s.firstPosition := by
  have hcounts : s.CountsOn 0 := hsize
  rw [position, hcounts.countOn_eq]
  rfl

/-! ### Changes behind the history -/

/-- A change at the position of a conversion segment leaves the history alone. -/
theorem segments_modify (i : ℕ) (f : Segment → Segment) :
    (s.modify (s.historySize + i) f).segments =
      s.historySegments ++ s.conversionSegments.modify i f := by
  rw [historySize, ← Lists.modify_length_add_append, history_append_conversion]
  rfl

/-- The state with its history and the given segments behind it. -/
def withConversion (s : Segments) (segments : List Segment) : Segments :=
  { s with segments := s.historySegments ++ segments }

theorem withConversion_conversionSegments : s.withConversion s.conversionSegments = s := by
  rw [withConversion, history_append_conversion]

theorem modify_historySize_add (i : ℕ) (f : Segment → Segment) :
    s.modify (s.historySize + i) f = s.withConversion (s.conversionSegments.modify i f) := by
  rw [withConversion, ← segments_modify]
  rfl

/-! ### Regions of a list with a committed front -/

theorem conversionSegments_of_append {front back : List Segment}
    (hsegments : s.segments = front ++ back)
    (hfront : ∀ segment ∈ front, committed segment = true) :
    s.conversionSegments = back.dropWhile committed := by
  rw [conversionSegments, hsegments, List.dropWhile_append_of_pos hfront]

/-- Where no segment is committed, none is left out. -/
theorem dropWhile_committed_eq_self {segments : List Segment}
    (hopen : ∀ segment ∈ segments, committed segment = false) :
    segments.dropWhile committed = segments := by
  cases segments with
  | nil => rfl
  | cons first rest =>
    rw [List.dropWhile_cons_of_neg]
    simp [hopen first List.mem_cons_self]

theorem conversionSegments_withConversion {segments : List Segment}
    (hopen : ∀ segment ∈ segments, committed segment = false) :
    (s.withConversion segments).conversionSegments = segments := by
  rw [conversionSegments_of_append rfl fun _ ↦ committed_of_mem_history s,
    dropWhile_committed_eq_self hopen]

/-- Behind a committed front, the first segment, if it is open, ends the history. -/
theorem historySegments_of_append {front back : List Segment}
    (hsegments : s.segments = front ++ back)
    (hfront : ∀ segment ∈ front, committed segment = true)
    (hback : ∀ segment ∈ back.head?, committed segment = false) : s.historySegments = front := by
  rw [historySegments, hsegments, List.takeWhile_append_of_pos hfront]
  cases back with
  | nil => rw [List.takeWhile_nil, List.append_nil]
  | cons first rest =>
    rw [List.takeWhile_cons_of_neg (by simp [hback first rfl]), List.append_nil]

theorem historySegments_withConversion {segments : List Segment}
    (hopen : ∀ segment ∈ segments.head?, committed segment = false) :
    (s.withConversion segments).historySegments = s.historySegments :=
  historySegments_of_append rfl (fun _ ↦ committed_of_mem_history s) hopen

/-- Where an open segment comes to stand within the history, the history ends in front of it, and
the conversion begins with it. -/
theorem regions_of_take_append {t : Segments} {position : ℕ} {back : List Segment}
    (hposition : position ≤ s.historySize)
    (hsegments : t.segments = s.segments.take position ++ back)
    (hback : ∀ segment ∈ back.head?, committed segment = false) :
    t.historySegments = s.historySegments.take position ∧ t.conversionSegments = back := by
  have hfront : s.segments.take position = s.historySegments.take position := by
    rw [← history_append_conversion s]
    exact List.take_append_of_le_length hposition
  rw [hfront] at hsegments
  have hhistory := historySegments_of_append hsegments
    (fun segment hmem ↦ committed_of_mem_history s (List.mem_of_mem_take hmem)) hback
  have hregions := history_append_conversion t
  rw [hhistory, hsegments] at hregions
  exact ⟨hhistory, List.append_cancel_left hregions⟩

/-- Other segments, the first of them open, are the conversion segments then. -/
theorem conversionSegments_withConversion_of_head {segments : List Segment}
    (hopen : ∀ segment ∈ segments.head?, committed segment = false) :
    (s.withConversion segments).conversionSegments = segments := by
  have hregions := history_append_conversion (s.withConversion segments)
  rw [historySegments_withConversion hopen] at hregions
  exact List.append_cancel_left hregions

theorem withConversion_withConversion {segments : List Segment}
    (hopen : ∀ segment ∈ segments, committed segment = false) (segments' : List Segment) :
    (s.withConversion segments).withConversion segments' = s.withConversion segments' := by
  rw [withConversion, historySegments_withConversion fun segment hmem ↦
    hopen segment (List.mem_of_mem_head? hmem)]
  rfl

/-! ### Choosing a candidate -/

/-- At a position with a segment a candidate is chosen just if the index addresses one. -/
theorem commitAt_of_getElem? {position : ℕ} {segment : Segment}
    (hsegment : s.segments[position]? = some segment) (candidate : ℤ) (type : SegmentType) :
    s.commitAt position candidate type =
      if segment.isValidIndex candidate then (s.modify position (chosen · candidate type)).done
      else s.refused (.candidateOutOfRange (position - s.historySize) candidate) := by
  rw [commitAt, hsegment]

section First

variable {first : Segment} {rest : List Segment}
  (hconversion : s.conversionSegments = first :: rest)

include hconversion

theorem firstPosition_of_cons : s.firstPosition = .ok s.historySize := by
  rw [firstPosition_eq_ok_iff, conversionSize, hconversion]
  exact ⟨Nat.succ_pos _, rfl⟩

theorem commitAt_historySize (candidate : ℤ) (type : SegmentType) :
    s.commitAt s.historySize candidate type =
      if first.isValidIndex candidate then
        (s.withConversion (chosen first candidate type :: rest)).done
      else s.refused (.candidateOutOfRange 0 candidate) := by
  have hfirst := getElem?_historySize_add s 0
  have hmodified := modify_historySize_add (s := s) 0 (chosen · candidate type)
  rw [hconversion, Nat.add_zero] at hfirst hmodified
  rw [commitAt_of_getElem? hfirst, hmodified, Nat.sub_self, List.modify_zero_cons]

end First

/-- Behind a first conversion segment that was submitted stand the next conversion segments. -/
theorem conversionSegments_submitted {first : Segment} {rest : List Segment} (candidate : ℤ) :
    (s.withConversion (chosen first candidate .submitted :: rest)).conversionSegments =
      rest.dropWhile committed := by
  rw [conversionSegments_of_append rfl fun _ ↦ committed_of_mem_history s,
    List.dropWhile_cons_of_pos rfl]

end KanaKanji.Segments
