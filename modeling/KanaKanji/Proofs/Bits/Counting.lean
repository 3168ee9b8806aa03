import Mathlib
import KanaKanji.Proofs.Bits.RankSelect

/-!
# Counting the bits of an image

What rank and select answer is told here from the bytes of an image alone, without a vector and
without a directory. The bit at a position is one of the bits of its byte (`bitAt`); bits of a kind
are counted along the positions in front of one, none of them past the end (`countBelow`); and the
`n`-th bit of a kind is the one that has `n` of them in front (`Selects`). The list of bits of the
image, from which the proofs about vectors start, gives the same (`count_take_eq_countBelow`,
`selects_positionOf`).
-/

set_option autoImplicit false

namespace KanaKanji

/-- The bit of an image at a position, which is zero past the end. -/
def bitAt (image : List UInt8) (i : ℕ) : Bool := (image.getD (i / 8) 0).toNat.testBit (i % 8)

/-- The number of bits of a kind in front of a position, and within the image. -/
def countBelow (image : List UInt8) (kind : Bool) (i : ℕ) : ℕ :=
  Nat.count (bitAt image · = kind) (min i (image.length * 8))

/-- The answer is the position of the `n`-th bit of a kind in the image, if there are more than `n`
of them. -/
structure Selects (image : List UInt8) (kind : Bool) (n : ℕ) (answer : Option ℕ) : Prop where
  some_iff : ∀ i, answer = some i ↔
    i < image.length * 8 ∧ bitAt image i = kind ∧ countBelow image kind i = n
  none_iff : answer = none ↔ countBelow image kind (image.length * 8) ≤ n

variable {image : List UInt8}

theorem get_ofBytes_eq_bitAt (i : ℕ) : (BitVector.ofBytes image).get i = bitAt image i := by
  rw [BitVector.get, bitAt]
  by_cases hi : i / 8 < image.length
  · rw [dif_pos (by simpa [BitVector.ofBytes] using hi), List.getD_eq_getElem _ _ hi]
    rfl
  · rw [dif_neg (by simpa [BitVector.ofBytes] using hi), List.getD_eq_default _ _ (by omega)]
    simp

theorem bitAt_eq_getD (i : ℕ) : bitAt image i = (image.flatMap byteBits).getD i false := by
  rw [← get_ofBytes_eq_bitAt, BitVector.get_eq_getD, BitVector.toList_ofBytes]

theorem getElem?_eq_some_iff_bitAt {kind : Bool} {i : ℕ} :
    (image.flatMap byteBits)[i]? = some kind ↔ i < image.length * 8 ∧ bitAt image i = kind := by
  rw [bitAt_eq_getD, ← length_flatMap_byteBits image, List.getElem?_eq_some_iff]
  constructor
  · rintro ⟨hi, hkind⟩
    exact ⟨hi, (List.getD_eq_getElem _ _ hi).trans hkind⟩
  · rintro ⟨hi, hkind⟩
    exact ⟨hi, (List.getD_eq_getElem _ _ hi).symm.trans hkind⟩

/-- Counting along the list of bits is counting positions. -/
theorem count_take_eq_countBelow (kind : Bool) (i : ℕ) :
    ((image.flatMap byteBits).take i).count kind = countBelow image kind i := by
  have hcount : ∀ place ≤ image.length * 8,
      ((image.flatMap byteBits).take place).count kind =
        Nat.count (bitAt image · = kind) place := by
    intro place hplace
    induction place with
    | zero => rfl
    | succ place ih =>
      have hbound : place < (image.flatMap byteBits).length := by
        rw [length_flatMap_byteBits]
        omega
      have hbit := getElem?_eq_some_iff_bitAt.mp (List.getElem?_eq_getElem hbound)
      rw [List.take_add_one, List.getElem?_eq_getElem hbound, Option.toList_some, List.count_append,
        ih (by omega), Nat.count_succ, List.count_singleton, ← hbit.2]
      simp
  rw [countBelow, ← hcount _ (min_le_right _ _), ← length_flatMap_byteBits,
    ← List.take_eq_take_min]

theorem selects_positionOf (kind : Bool) (n : ℕ) :
    Selects image kind n (positionOf kind n (image.flatMap byteBits)) := by
  constructor
  · intro i
    rw [positionOf_eq_some_iff, getElem?_eq_some_iff_bitAt, count_take_eq_countBelow, and_assoc]
  · rw [← count_take_eq_countBelow, List.take_of_length_le (length_flatMap_byteBits image).le]
    constructor
    · intro hnone
      by_contra hmore
      obtain ⟨i, hi⟩ := exists_positionOf_of_lt_count (Nat.lt_of_not_le hmore)
      exact absurd (hnone.symm.trans hi) (by simp)
    · exact positionOf_eq_none_of_count_le

end KanaKanji
