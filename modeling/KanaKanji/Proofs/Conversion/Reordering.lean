import Mathlib
import KanaKanji.Proofs.Conversion.Submission
import KanaKanji.Proofs.Guarded
import KanaKanji.Proofs.Lists

/-!
# Candidates in another order

`Segment.move?` takes a candidate out of the ranking and puts it in again at another rank. The same
can be done in place: the candidates from one of the two ranks to the other are turned by one
place, to the right if the candidate goes up and to the left if it goes down.
`Segment.moveInPlace` does so in guarded steps, and tells whether there was anything to move. The
two agree (`Segment.moveInPlace_eq_ok`): where the ranking is parted at both ranks, each of them
leaves the candidates in front of the ranks, between them and behind them as they are, and has the
one that moves on the other side of those between.

A candidate is chosen or brought into focus by moving it to the first rank.
`others_keep_ranking` says what a move does, and what choosing and focusing make of a state.
-/

set_option autoImplicit false

namespace KanaKanji

namespace Segment

open KanaKanji.Guarded KanaKanji.Lists

/-! ### Moving in place -/

section Turn

variable {α : Type} {front middle back xs : List α} {a : α} {i j : ℕ}

/-- An element that moves towards the front passes those between. -/
theorem moveElement_up :
    moveElement (front ++ (middle ++ a :: back)) (front.length + middle.length) front.length =
      front ++ a :: (middle ++ back) := by
  have hget : (front ++ (middle ++ a :: back))[front.length + middle.length]? = some a := by simp
  rw [moveElement, hget]
  dsimp only
  rw [← List.append_assoc, ← List.length_append, eraseIdx_length_append, List.append_assoc,
    insertIdx_length_append]

theorem moveElement_down :
    moveElement (front ++ a :: (middle ++ back)) front.length (front.length + middle.length) =
      front ++ (middle ++ a :: back) := by
  have hget : (front ++ a :: (middle ++ back))[front.length]? = some a := by simp
  rw [moveElement, hget]
  dsimp only
  rw [eraseIdx_length_append, ← List.append_assoc, ← List.length_append, insertIdx_length_append,
    List.append_assoc]

/-- The list with the elements between two places, both included, turned by one place, so that the
element at the first place comes to stand at the other. -/
def turn (xs : List α) (source target : ℕ) : Except Fault (List α) :=
  if target < source then rearrange xs target source (·.rotateRight 1)
  else if source < target then rearrange xs source target (·.rotateLeft 1)
  else .ok xs

theorem turn_eq_ok (hi : i < xs.length) (hj : j < xs.length) :
    turn xs i j = .ok (moveElement xs i j) := by
  have ha : xs[i]? = some xs[i] := List.getElem?_eq_getElem hi
  generalize xs[i] = a at ha
  rw [turn]
  rcases Nat.lt_trichotomy j i with hup | rfl | hdown
  · obtain ⟨front, middle, back, rfl, rfl, rfl⟩ := exists_eq_append_of_le ha hup.le
    have hturned := rearrange_append front (middle ++ [a]) back (by simp)
      (by rw [List.length_append, List.length_singleton, Nat.add_assoc]) (·.rotateRight 1)
    rw [List.append_assoc, List.singleton_append] at hturned
    rw [if_pos hup, hturned, rotateRight_append_singleton, moveElement_up]
    rfl
  · obtain ⟨front, middle, back, rfl, rfl, hmiddle⟩ := exists_eq_append_of_le ha le_rfl
    obtain rfl : middle = [] := List.length_eq_zero_iff.mp (by omega)
    rw [if_neg (lt_irrefl _), if_neg (lt_irrefl _)]
    have hstays : moveElement (front ++ ([] ++ a :: back)) front.length front.length =
        front ++ a :: ([] ++ back) := moveElement_up
    exact congrArg Except.ok hstays.symm
  · obtain ⟨front, middle, back, rfl, rfl, rfl⟩ := exists_eq_append_of_lt ha hdown hj
    have hturned := rearrange_append front (a :: middle) back (by simp)
      (by rw [List.length_cons, Nat.add_assoc]) (·.rotateLeft 1)
    rw [List.cons_append] at hturned
    rw [if_neg (by omega), if_pos hdown, hturned, rotateLeft_cons, moveElement_down,
      List.append_assoc, List.singleton_append]

end Turn

variable {s after : Segment} {source : ℤ} {target : ℕ}

/-- Moves a candidate to a rank by turning the candidates between the two ranks, and tells whether
there was anything to move. A meta candidate is copied to the rank. -/
def moveInPlace (s : Segment) (source : ℤ) (target : ℕ) : Except Fault (Segment × Bool) :=
  if source < 0 then
    match s.metaCandidates[metaPosition source]? with
    | none => .ok (s, false)
    | some candidate =>
      if s.candidates.length < target then .ok (s, false)
      else .ok ({ s with candidates := s.candidates.insertIdx target candidate }, true)
  else if s.candidates.length ≤ source.toNat ∨ s.candidates.length ≤ target then .ok (s, false)
  else (turn s.candidates source.toNat target).map ({ s with candidates := · }, true)

/-- Turning the candidates between two ranks is moving one of them from one rank to the other. -/
theorem moveInPlace_eq_ok (s : Segment) (source : ℤ) (target : ℕ) :
    s.moveInPlace source target =
      .ok ((s.move? source target).getD s, (s.move? source target).isSome) := by
  rw [moveInPlace, move?, candidate?]
  by_cases hmeta : source < 0
  · rw [if_pos hmeta, if_pos hmeta, if_pos hmeta]
    rcases s.metaCandidates[metaPosition source]? with _ | candidate
    · rfl
    dsimp only
    rw [Option.bind_some, insert?]
    by_cases hpast : s.candidates.length < target
    · rw [if_pos hpast, if_neg (by omega)]
      rfl
    · rw [if_neg hpast, if_pos (by omega)]
      rfl
  · rw [if_neg hmeta, if_neg hmeta]
    by_cases hranks : source.toNat < s.candidates.length ∧ target < s.candidates.length
    · rw [if_neg (by omega), if_pos hranks, turn_eq_ok hranks.1 hranks.2]
      rfl
    · rw [if_pos (by omega), if_neg hranks]
      rfl

/-! ### What moves and what stays -/

theorem metaPosition_neg_sub_one (place : ℕ) : metaPosition (-(place : ℤ) - 1) = place := by
  rw [metaPosition]
  omega

/-- The candidates of a segment other than the one at an index. A meta candidate is none of them. -/
def others (s : Segment) (i : ℤ) : List Candidate :=
  if i < 0 then s.candidates else s.candidates.eraseIdx i.toNat

/-- The segment with a candidate put at a rank, after it was taken from its own rank or copied from
the meta candidates. Nothing else in the segment changes. -/
inductive MovedTo (s : Segment) : (source : ℤ) → (target : ℕ) → Segment → Prop
  | ranked {source target : ℕ} {candidate : Candidate}
    (hcandidate : s.candidates[source]? = some candidate) (htarget : target < s.candidates.length) :
    MovedTo s source target
      { s with candidates := (s.candidates.eraseIdx source).insertIdx target candidate }
  | copied {place target : ℕ} {candidate : Candidate}
    (hcandidate : s.metaCandidates[place]? = some candidate)
    (htarget : target ≤ s.candidates.length) :
    MovedTo s (-(place : ℤ) - 1) target
      { s with candidates := s.candidates.insertIdx target candidate }

theorem move?_eq_some_iff : s.move? source target = some after ↔ s.MovedTo source target after := by
  constructor
  · intro hmove
    rw [move?] at hmove
    split at hmove
    · next hmeta =>
      obtain ⟨candidate, hcandidate, hinsert⟩ := Option.bind_eq_some_iff.mp hmove
      rw [candidate?, if_pos hmeta] at hcandidate
      rw [insert?, Option.ite_none_right_eq_some] at hinsert
      obtain ⟨htarget, hafter⟩ := hinsert
      have hplace : source = -(metaPosition source : ℤ) - 1 := by
        rw [metaPosition]
        omega
      rw [hplace, ← Option.some.inj hafter]
      exact .copied hcandidate htarget
    · next hrank =>
      rw [Option.ite_none_right_eq_some] at hmove
      obtain ⟨⟨hsource, htarget⟩, hafter⟩ := hmove
      have hcandidate := List.getElem?_eq_getElem hsource
      rw [moveElement, hcandidate] at hafter
      rw [← Int.toNat_of_nonneg (not_lt.mp hrank), ← Option.some.inj hafter]
      exact .ranked hcandidate htarget
  · rintro (⟨hcandidate, htarget⟩ | ⟨hcandidate, htarget⟩)
    · obtain ⟨hsource, -⟩ := List.getElem?_eq_some_iff.mp hcandidate
      rw [move?, if_neg (by omega), Int.toNat_natCast, if_pos ⟨hsource, htarget⟩, moveElement,
        hcandidate]
    · rw [move?, if_pos (by omega), candidate?, if_pos (by omega), metaPosition_neg_sub_one,
        hcandidate, Option.bind_some, insert?, if_pos htarget]

/-- The candidate that was addressed stands at the rank, and the others are those of before, in
their order. -/
theorem MovedTo.exists_candidate (hmoved : s.MovedTo source target after) :
    ∃ candidate, s.candidate? source = some candidate ∧
      after.candidates[target]? = some candidate ∧
      after.candidates.eraseIdx target = s.others source := by
  cases hmoved with
  | @ranked source target candidate hcandidate htarget =>
    obtain ⟨hsource, -⟩ := List.getElem?_eq_some_iff.mp hcandidate
    have hrank : target ≤ (s.candidates.eraseIdx source).length := by
      rw [List.length_eraseIdx_of_lt hsource]
      omega
    refine ⟨candidate, ?_, ?_, ?_⟩
    · rw [candidate?, if_neg (by omega), Int.toNat_natCast, hcandidate]
    · rw [List.getElem?_insertIdx_self, if_pos hrank]
    · rw [List.eraseIdx_insertIdx_self, others, if_neg (by omega), Int.toNat_natCast]
  | @copied place target candidate hcandidate htarget =>
    refine ⟨candidate, ?_, ?_, ?_⟩
    · rw [candidate?, if_pos (by omega), metaPosition_neg_sub_one, hcandidate]
    · rw [List.getElem?_insertIdx_self, if_pos htarget]
    · rw [List.eraseIdx_insertIdx_self, others, if_pos (by omega)]

/-- A candidate is moved to the first rank just if the index addresses one. -/
theorem move?_zero_eq_some_iff {i : ℤ} :
    s.move? i 0 = some after ↔ ∃ candidate, s.candidate? i = some candidate ∧
      after = { s with candidates := candidate :: s.others i } := by
  constructor
  · intro hmove
    obtain ⟨candidate, hcandidate, -⟩ := (move?_eq_some_iff.mp hmove).exists_candidate
    rw [move?_zero hcandidate] at hmove
    exact ⟨candidate, hcandidate, (Option.some.inj hmove).symm⟩
  · rintro ⟨candidate, hcandidate, rfl⟩
    exact move?_zero hcandidate

end Segment

/-! ### Choosing and focusing -/

namespace Segments

variable {s t : Segments} {n : UInt64} {i : ℤ} {segment : Segment} {candidate : Candidate}

/-- The state with another segment at a position. -/
def withSegment (s : Segments) (position : ℕ) (segment : Segment) : Segments :=
  { s with segments := s.segments.set position segment }

theorem modify_eq_withSegment {position : ℕ} (hsegment : s.segments[position]? = some segment)
    (f : Segment → Segment) : s.modify position f = s.withSegment position (f segment) := by
  rw [modify, withSegment, List.modify_eq_set_getElem?, hsegment]
  rfl

/-- A segment in which a candidate was made the value: this one stands first, marked unless it stood
there before, and the others follow in their order. -/
def withValue (segment : Segment) (i : ℤ) (candidate : Candidate) : Segment :=
  { segment with
    type := .fixedValue
    candidates :=
      (if i = 0 then candidate else candidate.withAttributes .reranked) :: segment.others i }

/-- A segment in which a candidate was brought into focus: this one stands first, and the others
follow in their order. -/
def withFocus (segment : Segment) (i : ℤ) (candidate : Candidate) : Segment :=
  { segment with candidates := candidate :: segment.others i }

/-- An index has a position where a segment stands that it counts on to. -/
theorem position_countOn (hsegment : s.segments[s.countOn n]? = some segment) :
    s.position n = .ok (s.countOn n) :=
  position_eq_ok_iff_countOn.mpr ⟨(List.getElem?_eq_some_iff.mp hsegment).1, rfl⟩

theorem commitSegment_eq (hsegment : s.segments[s.countOn n]? = some segment)
    (hcandidate : segment.candidate? i = some candidate) :
    s.commitSegment n i =
      done (s.withSegment (s.countOn n) (withValue segment i candidate)) := by
  have hvalid : segment.isValidIndex i = true := Option.isSome_iff_exists.mpr ⟨_, hcandidate⟩
  rw [commitSegment_of_position (position_countOn hsegment) hsegment hvalid,
    modify_eq_withSegment hsegment, chosen_eq hcandidate]
  rfl

theorem commitSegment_eq_done_iff :
    s.commitSegment n i = done t ↔ ∃ segment candidate,
      s.segments[s.countOn n]? = some segment ∧ segment.candidate? i = some candidate ∧
      t = s.withSegment (s.countOn n) (withValue segment i candidate) := by
  constructor
  · intro hdone
    obtain ⟨position, segment, hposition, hsegment, hvalid, -⟩ :=
      exists_position_of_commitSegment hdone
    obtain ⟨-, rfl⟩ := position_eq_ok_iff_countOn.mp hposition
    obtain ⟨candidate, hcandidate⟩ := Option.isSome_iff_exists.mp hvalid
    rw [commitSegment_eq hsegment hcandidate, done_inj] at hdone
    exact ⟨segment, candidate, hsegment, hcandidate, hdone.symm⟩
  · rintro ⟨segment, candidate, hsegment, hcandidate, rfl⟩
    exact commitSegment_eq hsegment hcandidate

theorem focusSegment_eq (hsegment : s.segments[s.countOn n]? = some segment)
    (hcandidate : segment.candidate? i = some candidate) :
    s.focusSegment n i =
      done (s.withSegment (s.countOn n) (withFocus segment i candidate)) := by
  have htarget : s.segments.getD (s.countOn n) default = segment := by
    rw [List.getD_eq_getElem?_getD, hsegment, Option.getD_some]
  rw [focusSegment, position_countOn hsegment]
  dsimp only
  rw [htarget, Segment.move?_zero hcandidate]
  dsimp only
  rw [modify_eq_withSegment hsegment]
  rfl

theorem focusSegment_eq_done_iff :
    s.focusSegment n i = done t ↔ ∃ segment candidate,
      s.segments[s.countOn n]? = some segment ∧ segment.candidate? i = some candidate ∧
      t = s.withSegment (s.countOn n) (withFocus segment i candidate) := by
  constructor
  · intro hdone
    obtain ⟨position, segment, ranked, hposition, hsegment, hmove, -⟩ :=
      exists_position_of_focusSegment hdone
    obtain ⟨-, rfl⟩ := position_eq_ok_iff_countOn.mp hposition
    obtain ⟨candidate, hcandidate, -⟩ := Segment.move?_zero_eq_some_iff.mp hmove
    rw [focusSegment_eq hsegment hcandidate, done_inj] at hdone
    exact ⟨segment, candidate, hsegment, hcandidate, hdone.symm⟩
  · rintro ⟨segment, candidate, hsegment, hcandidate, rfl⟩
    exact focusSegment_eq hsegment hcandidate

/-- Where the position does not wrap around, an index counts on to its conversion segment. -/
theorem getElem?_countOn (hcounts : s.CountsOn n) :
    s.segments[s.countOn n]? = s.conversionSegments[n.toNat]? := by
  rw [hcounts.countOn_eq, getElem?_historySize_add]

/-- Moving a candidate in place, by turning those between two ranks, has the outcome of taking it
out and putting it in again, or of copying a meta candidate, and is refused without a change where
an index addresses nothing. The others are the same in the same order. Choosing a value and focusing
one are carried out just if a segment stands where the index counts on to and has a candidate at the
other index. That candidate stands then at the first rank, the others and the meta candidates are as
they were, and so are the other segments and all else in the state; choosing also sets the type of
the segment and marks the candidate unless it stood at the first rank before. The segment is the
conversion segment of the index, unless the sum that gives its position wraps around. -/
theorem others_keep_ranking :
    (∀ (s : Segment) (source : ℤ) (target : ℕ),
      s.moveInPlace source target =
        .ok ((s.move? source target).getD s, (s.move? source target).isSome) ∧
      ∀ after, (s.move? source target = some after ↔ s.MovedTo source target after) ∧
        (s.MovedTo source target after → ∃ candidate, s.candidate? source = some candidate ∧
          after.candidates[target]? = some candidate ∧
          after.candidates.eraseIdx target = s.others source)) ∧
    ∀ (s t : Segments) (n : UInt64) (i : ℤ),
      (s.commitSegment n i = done t ↔
        ∃ segment candidate, s.segments[s.countOn n]? = some segment ∧
          segment.candidate? i = some candidate ∧
          t = { s with
            segments := s.segments.set (s.countOn n) { segment with
              type := .fixedValue
              candidates := (if i = 0 then candidate else candidate.withAttributes .reranked) ::
                segment.others i } }) ∧
      (s.focusSegment n i = done t ↔
        ∃ segment candidate, s.segments[s.countOn n]? = some segment ∧
          segment.candidate? i = some candidate ∧
          t = { s with
            segments := s.segments.set (s.countOn n) { segment with
              candidates := candidate :: segment.others i } }) ∧
      (s.CountsOn n → s.segments[s.countOn n]? = s.conversionSegments[n.toNat]?) :=
  ⟨fun s source target ↦ ⟨Segment.moveInPlace_eq_ok s source target, fun _ ↦
    ⟨Segment.move?_eq_some_iff, Segment.MovedTo.exists_candidate⟩⟩,
    fun _ _ _ _ ↦ ⟨commitSegment_eq_done_iff, focusSegment_eq_done_iff, getElem?_countOn⟩⟩

/-- Four candidates and a meta candidate. -/
def fourRanks : Segment where
  key := "か"
  candidates := [.new "か" "蚊", .new "か" "課", .new "か" "科", .new "か" "香"]
  metaCandidates := [.new "か" "カ"]

/-- The last candidate is moved to the second rank, and the meta candidate to the first. -/
theorem others_keep_ranking_fourRanks :
    (∃ after, fourRanks.moveInPlace 3 1 = .ok (after, true) ∧
      after.candidates[1]? = some (.new "か" "香") ∧
      after.candidates.eraseIdx 1 = [.new "か" "蚊", .new "か" "課", .new "か" "科"]) ∧
    ∃ t, { empty with segments := [fourRanks] }.focusSegment 0 (-1) = done t ∧
      t.segments = [{ fourRanks with candidates := .new "か" "カ" :: fourRanks.candidates }] := by
  constructor
  · obtain ⟨hinPlace, hmoves⟩ := others_keep_ranking.1 fourRanks 3 1
    obtain ⟨after, hmove⟩ : ∃ after, fourRanks.move? 3 1 = some after := ⟨_, rfl⟩
    obtain ⟨hmoved, hranking⟩ := hmoves after
    obtain ⟨candidate, hcandidate, hrank, hothers⟩ := hranking (hmoved.mp hmove)
    obtain rfl : Candidate.new "か" "香" = candidate := Option.some.inj hcandidate
    rw [hmove] at hinPlace
    exact ⟨after, hinPlace, hrank, hothers⟩
  · exact ⟨_, (others_keep_ranking.2 _ _ 0 (-1)).2.1.mpr
      ⟨fourRanks, .new "か" "カ", rfl, rfl, rfl⟩, rfl⟩

end Segments

end KanaKanji
