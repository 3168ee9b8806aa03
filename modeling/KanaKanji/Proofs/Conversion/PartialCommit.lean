import Mathlib
import KanaKanji.Proofs.Conversion.Reordering

/-!
# Submitting the front of a segment

`commitPartially` submits a segment for the front part of its key only. It chooses the candidate as
every submission does, compares the length of that candidate's key with the key that the segment
still has, and only then shortens the key and puts a free segment behind it. What it is asked for
has to be a proper front part of the key (`splitsKey_iff`); the key of the free segment need not be
the rest.

`Segment.PartlySubmittedAs` says what becomes of the segment: above all which flags the first
candidate has then (`hasFlag_flagged`). `commitPartially_parts_segment` says when the commit is
carried out and what the state is then.
-/

set_option autoImplicit false

namespace KanaKanji

/-! ### Flags -/

namespace CandidateAttributes

/-- The flag at a place, counted from the lowest bit, is set. -/
def HasFlag (a : CandidateAttributes) (flag : ℕ) : Prop := a.bits.toNat.testBit flag = true

instance (a : CandidateAttributes) (flag : ℕ) : Decidable (a.HasFlag flag) :=
  inferInstanceAs (Decidable (_ = _))

theorem hasFlag_union {a b : CandidateAttributes} {flag : ℕ} :
    (a.union b).HasFlag flag ↔ a.HasFlag flag ∨ b.HasFlag flag := by
  rw [HasFlag, union, UInt32.toNat_or, Nat.testBit_or, Bool.or_eq_true]
  rfl

end CandidateAttributes

open CandidateAttributes

/-! ### The submitted part -/

namespace Segment

variable {s : Segment} {i : ℤ} {candidate : Candidate}

/-- A candidate is addressed by its rank, and a meta candidate by its place counted down from minus
one. -/
inductive Addresses (s : Segment) : ℤ → Candidate → Prop
  | ranked {rank : ℕ} {candidate : Candidate} (hrank : s.candidates[rank]? = some candidate) :
    Addresses s rank candidate
  | apart {place : ℕ} {candidate : Candidate} (hplace : s.metaCandidates[place]? = some candidate) :
    Addresses s (-(place : ℤ) - 1) candidate

theorem candidate?_eq_some_iff : s.candidate? i = some candidate ↔ s.Addresses i candidate := by
  constructor
  · intro hcandidate
    rw [candidate?] at hcandidate
    split at hcandidate
    · next hmeta =>
      have hplace : i = -(metaPosition i : ℤ) - 1 := by
        rw [metaPosition]
        omega
      rw [hplace]
      exact .apart hcandidate
    · next hrank =>
      rw [← Int.toNat_of_nonneg (not_lt.mp hrank)]
      exact .ranked hcandidate
  · rintro (hrank | hplace)
    · rwa [candidate?, if_neg (by omega), Int.toNat_natCast]
    · rwa [candidate?, if_pos (by omega), metaPosition_neg_sub_one]

/-- The segment was submitted for the front part of its key with the candidate at an index. That
candidate stands first, the others follow in their order, and the meta candidates are the same. The
first candidate keeps its flags, and is marked as moved unless it stood first before, and as a
partial suggestion unless its own key has as many characters as the whole key had. -/
structure PartlySubmittedAs (s : Segment) (i : ℤ) (current : String) (after : Segment) : Prop where
  type_eq : after.type = .submitted
  key_eq : after.key = current
  metaCandidates_eq : after.metaCandidates = s.metaCandidates
  exists_first : ∃ candidate first, s.Addresses i candidate ∧
    after.candidates = first :: s.others i ∧
    first = { candidate with attributes := first.attributes } ∧
    ∀ flag, first.attributes.HasFlag flag ↔ candidate.attributes.HasFlag flag ∨
      i ≠ 0 ∧ reranked.HasFlag flag ∨
      candidate.key.length ≠ s.key.length ∧ autoPartialSuggestion.HasFlag flag

end Segment

namespace Segments

variable {s t : Segments} {n : UInt64} {i : ℤ} {segment : Segment} {candidate : Candidate}
  {current new : String}

/-- The chosen candidate with the flags that it gets. -/
def flagged (segment : Segment) (i : ℤ) (candidate : Candidate) : Candidate :=
  let moved := if i = 0 then candidate else candidate.withAttributes .reranked
  if candidate.key.length = segment.keyLength then moved
  else moved.withAttributes .autoPartialSuggestion

theorem flagged_eq (segment : Segment) (i : ℤ) (candidate : Candidate) :
    flagged segment i candidate =
      { candidate with attributes := (flagged segment i candidate).attributes } := by
  rw [flagged]
  split <;> split <;> rfl

theorem hasFlag_flagged {flag : ℕ} :
    (flagged segment i candidate).attributes.HasFlag flag ↔
      candidate.attributes.HasFlag flag ∨ i ≠ 0 ∧ reranked.HasFlag flag ∨
        candidate.key.length ≠ segment.key.length ∧ autoPartialSuggestion.HasFlag flag := by
  rw [flagged, Segment.keyLength]
  by_cases hfirst : i = 0 <;> by_cases hwhole : candidate.key.length = segment.key.length <;>
    simp [hfirst, hwhole, Candidate.withAttributes, hasFlag_union, or_assoc]

theorem submittedPart_eq (hcandidate : segment.candidate? i = some candidate) (current : String) :
    submittedPart segment i current =
      { segment with
        key := current
        type := .submitted
        candidates := flagged segment i candidate :: segment.others i } := by
  -- Choosing a candidate leaves the key, so the lengths compared are those from before.
  have hkey : (if i = 0 then candidate else candidate.withAttributes .reranked).key =
      candidate.key := by
    split <;> rfl
  rw [submittedPart, chosen_eq hcandidate, shortened, Segment.modifyCandidate,
    if_neg (lt_irrefl _), flagged, ← hkey]
  rfl

theorem partlySubmittedAs_submittedPart (hcandidate : segment.candidate? i = some candidate)
    (current : String) :
    segment.PartlySubmittedAs i current (submittedPart segment i current) := by
  rw [submittedPart_eq hcandidate]
  exact ⟨rfl, rfl, rfl, candidate, _, Segment.candidate?_eq_some_iff.mp hcandidate, rfl,
    flagged_eq segment i candidate, fun _ ↦ hasFlag_flagged⟩

/-! ### The commit -/

/-- A key is split at the end of a front part that is not empty and not all of it. -/
theorem splitsKey_iff {key : String} : splitsKey key current new = true ↔
    current ≠ "" ∧ new ≠ "" ∧ ∃ rest, rest ≠ "" ∧ key = current ++ rest := by
  have hfront : (current.toList <+: key.toList ∧ current ≠ key) ↔
      ∃ rest, rest ≠ "" ∧ key = current ++ rest := by
    constructor
    · rintro ⟨⟨rest, hrest⟩, hne⟩
      have hkey : key = current ++ String.ofList rest := by
        rw [← String.toList_inj, String.toList_append, String.toList_ofList, hrest]
      refine ⟨String.ofList rest, fun hempty ↦ hne ?_, hkey⟩
      rw [hkey, hempty, String.append_empty]
    · rintro ⟨rest, hrest, rfl⟩
      refine ⟨⟨rest.toList, (String.toList_append ..).symm⟩, fun hsame ↦ hrest ?_⟩
      exact String.append_eq_left_iff.mp hsame.symm
  rw [← hfront]
  simp [splitsKey, and_assoc]

/-- A front part of a segment can be submitted with each candidate that the segment has. -/
theorem exists_commitPartially_of_position {position : ℕ} (hposition : s.position n = .ok position)
    (hsegment : s.segments[position]? = some segment) (hvalid : segment.isValidIndex i = true)
    (hsplits : splitsKey segment.key current new = true) :
    ∃ t, s.commitPartially n i current new = done t := by
  have htarget := getElem?_position hposition
  rw [hsegment] at htarget
  rw [commitPartially, hposition]
  dsimp only
  rw [← Option.some.inj htarget, if_neg (by simp [hvalid]), if_neg (by simp [hsplits]),
    commitAt_of_getElem? hsegment, if_pos hvalid]
  exact ⟨_, rfl⟩

theorem commitPartially_eq_done_iff (hcounts : s.CountsOn n) :
    s.commitPartially n i current new = done t ↔
    ∃ segment candidate, s.conversionSegments[n.toNat]? = some segment ∧
      segment.candidate? i = some candidate ∧ splitsKey segment.key current new = true ∧
      t = s.withConversion (s.conversionSegments.take n.toNat ++
        submittedPart segment i current :: .new new .free ::
          s.conversionSegments.drop (n.toNat + 1)) := by
  constructor
  · intro hdone
    obtain ⟨segment, hsegment, hvalid, hsplits, ht⟩ := commitPartially_eq_done hcounts hdone
    obtain ⟨candidate, hcandidate⟩ := Option.isSome_iff_exists.mp hvalid
    exact ⟨segment, candidate, hsegment, hcandidate, hsplits, ht⟩
  · rintro ⟨segment, candidate, hsegment, hcandidate, hsplits, rfl⟩
    obtain ⟨t, hdone⟩ := exists_commitPartially_of_position
      (position_of_getElem? hcounts hsegment)
      ((getElem?_historySize_add s n.toNat).trans hsegment)
      (Option.isSome_iff_exists.mpr ⟨candidate, hcandidate⟩) hsplits
    obtain ⟨other, hother, -, -, rfl⟩ := commitPartially_eq_done hcounts hdone
    obtain rfl : segment = other := Option.some.inj (hsegment.symm.trans hother)
    exact hdone

/-- A segment behind the history, with a candidate for the front part of its key. -/
def behindHistory : Segments :=
  { empty with
    segments := [
      .new "きょうは" .history,
      { key := "わたし", candidates := [.new "わたし" "私", .new "わた" "綿"] }] }

end Segments

end KanaKanji
