import Mathlib
import KanaKanji.Bytes.LittleEndian
import KanaKanji.Proofs.Guarded
import KanaKanji.Proofs.Bits.Packing
import KanaKanji.Proofs.Outcomes

/-!
# Words of 32 bits

A machine reads four bytes of an image at once, and counts and finds ones within such a word by
operations on it. Here each operation is told by the bits of the word, the lowest first
(`wordBits`): reading a word gives 32 bits of the image, where an image that ends within the word is
filled up with zeros (`exists_wordAt_eq_ok`), a complement turns each bit over (`wordBits_turn`), a
mask keeps the first bits (`maskBelow_eq_ok`), and taking one off and keeping what is left of the
word clears its lowest one, so that the `k`-th one comes to be the lowest (`selectInWord_eq_ok`).
-/

set_option autoImplicit false

namespace KanaKanji

/-! ### Bits of numbers -/

/-- The first bits of a number, the lowest first. -/
def natBits (count n : ℕ) : List Bool := (List.range count).map n.testBit

theorem natBits_succ (count n : ℕ) :
    natBits (count + 1) n = n.testBit 0 :: natBits count (n / 2) := by
  rw [natBits, natBits, List.range_succ_eq_map, List.map_cons, List.map_map]
  congr 1
  refine List.map_congr_left fun i _ ↦ ?_
  rw [Function.comp_apply, Nat.succ_eq_add_one, Nat.testBit_succ]

@[simp] theorem length_natBits (count n : ℕ) : (natBits count n).length = count := by
  simp [natBits]

/-- The bits of the number that bytes stand for are those of the bytes. -/
theorem natBits_decode (bytes : List UInt8) :
    natBits (bytes.length * 8) (LittleEndian.decode bytes) = bytes.flatMap byteBits := by
  induction bytes with
  | nil => rfl
  | cons b rest ih =>
    have hbyte : b.toNat < 2 ^ 8 := b.toNat_lt
    have hbits : ∀ i, (LittleEndian.decode (b :: rest)).testBit i =
        if i < 8 then b.toNat.testBit i else (LittleEndian.decode rest).testBit (i - 8) := by
      intro i
      rw [LittleEndian.decode, Nat.add_comm]
      exact Nat.testBit_two_pow_mul_add _ hbyte i
    have hlength : (b :: rest).length * 8 = 8 + rest.length * 8 := by
      rw [List.length_cons]
      omega
    rw [List.flatMap_cons, ← ih, hlength, natBits, List.range_add, List.map_append, List.map_map]
    congr 1
    · refine List.map_congr_left fun i hi ↦ ?_
      rw [hbits, if_pos (List.mem_range.mp hi)]
    · refine List.map_congr_left fun i _ ↦ ?_
      rw [Function.comp_apply, hbits, if_neg (by omega), Nat.add_sub_cancel_left]

/-- Without its lowest one, a number has each further one as the one before. -/
theorem positionOf_and_pred (count k : ℕ) {n : ℕ} (hn : n ≠ 0) :
    positionOf true k (natBits count (n &&& (n - 1))) =
      positionOf true (k + 1) (natBits count n) := by
  induction count generalizing n with
  | zero => rfl
  | succ count ih =>
    rw [natBits_succ, natBits_succ, Nat.testBit_and, Nat.and_div_two]
    rcases Nat.mod_two_eq_zero_or_one n with heven | hodd
    · -- The lowest one is among the bits of the half, and taking one off borrows from there.
      have hhalf : (n - 1) / 2 = n / 2 - 1 := by omega
      have hbit : n.testBit 0 = false := by simp [heven]
      rw [hbit, Bool.false_and, hhalf, positionOf_cons_of_ne (by decide),
        positionOf_cons_of_ne (by decide), ih (by omega)]
    · have hhalf : (n - 1) / 2 = n / 2 := by omega
      have hbit : n.testBit 0 = true := by simp [hodd]
      have hpred : (n - 1).testBit 0 = false := by
        have heven : (n - 1) % 2 = 0 := by omega
        simp [heven]
      rw [hbit, hpred, Bool.and_false, hhalf, Nat.and_self, positionOf_cons_of_ne (by decide),
        positionOf_cons_self_succ]

/-- The zeros in front of the lowest one tell its position. -/
theorem length_takeWhile_not {bits : List Bool} {i : ℕ} (hi : positionOf true 0 bits = some i) :
    (bits.takeWhile (! ·)).length = i := by
  induction bits generalizing i with
  | nil => exact absurd hi (by simp [positionOf])
  | cons b rest ih =>
    cases b with
    | true => simpa using hi
    | false =>
      rw [positionOf_cons_of_ne (by decide)] at hi
      obtain ⟨j, hj, rfl⟩ := Option.map_eq_some_iff.mp hi
      rw [List.takeWhile_cons_of_pos rfl, List.length_cons, ih hj]

/-- Turning each bit over makes zeros the ones to look for. -/
theorem positionOf_map_beq (kind : Bool) (k : ℕ) (bits : List Bool) :
    positionOf true k (bits.map (· == kind)) = positionOf kind k bits := by
  induction bits generalizing k with
  | nil => rfl
  | cons b rest ih =>
    rw [List.map_cons]
    by_cases hb : b = kind
    · subst hb
      rw [beq_self_eq_true]
      cases k with
      | zero => rw [positionOf_cons_self_zero, positionOf_cons_self_zero]
      | succ k => rw [positionOf_cons_self_succ, positionOf_cons_self_succ, ih]
    · rw [beq_false_of_ne hb, positionOf_cons_of_ne (by decide), positionOf_cons_of_ne hb, ih]

theorem count_map_beq (kind : Bool) (bits : List Bool) :
    (bits.map (· == kind)).count true = bits.count kind := by
  rw [List.count_eq_countP, List.countP_map, List.count_eq_countP]
  refine List.countP_congr fun b _ ↦ ?_
  simp

/-! ### Words -/

/-- The bits of a word, the lowest first. -/
def wordBits (w : UInt32) : List Bool := natBits 32 w.toNat

/-- The number of ones in a word. -/
def countOnes (w : UInt32) : ℕ := (wordBits w).count true

/-- The number of zeros below the lowest one of a word. -/
def trailingZeros (w : UInt32) : ℕ := ((wordBits w).takeWhile (! ·)).length

/-- The word itself to look for ones, its complement to look for zeros. -/
def turn (kind : Bool) (w : UInt32) : UInt32 := if kind then w else ~~~w

/-- The word that four bytes stand for, the lowest first. -/
def wordOf (bytes : List UInt8) : UInt32 := UInt32.ofNat (LittleEndian.decode bytes)

@[simp] theorem length_wordBits (w : UInt32) : (wordBits w).length = 32 := length_natBits 32 _

theorem wordBits_wordOf {bytes : List UInt8} (hbytes : bytes.length = 4) :
    wordBits (wordOf bytes) = bytes.flatMap byteBits := by
  have hfits : LittleEndian.decode bytes < UInt32.size := by
    have hlt := LittleEndian.decode_take_lt 4 bytes
    rwa [List.take_of_length_le hbytes.le] at hlt
  rw [wordBits, wordOf, UInt32.toNat_ofNat_of_lt' hfits, ← natBits_decode, hbytes]

theorem wordBits_turn (kind : Bool) (w : UInt32) :
    wordBits (turn kind w) = (wordBits w).map (· == kind) := by
  rw [wordBits, wordBits, natBits, natBits, List.map_map]
  refine List.map_congr_left fun i hi ↦ ?_
  have hbound : i < 32 := List.mem_range.mp hi
  cases kind with
  | true => simp [turn]
  | false =>
    rw [turn, if_neg (by decide), ← UInt32.toNat_toBitVec, UInt32.toBitVec_not,
      BitVec.testBit_toNat, BitVec.getLsbD_not, Function.comp_apply, ← UInt32.toNat_toBitVec,
      BitVec.testBit_toNat]
    simp [hbound]

theorem countOnes_turn (kind : Bool) (w : UInt32) :
    countOnes (turn kind w) = (wordBits w).count kind := by
  rw [countOnes, wordBits_turn, count_map_beq]

/-! ### Images in words -/

/-- The number of words that an image takes, the last one begun included. -/
def wordCount (image : List UInt8) : ℕ := (image.length + 3) / 4

/-- The image, filled up with zeros to whole words. -/
def filled (image : List UInt8) : List UInt8 :=
  image ++ List.replicate (wordCount image * 4 - image.length) 0

/-- The bits of the image in whole words. -/
def filledBits (image : List UInt8) : List Bool := (filled image).flatMap byteBits

theorem filledBits_eq_append (image : List UInt8) :
    ∃ zeros, filledBits image = image.flatMap byteBits ++ List.replicate zeros false :=
  ⟨_, by rw [filledBits, filled, List.flatMap_append,
    BitStream.flatMap_byteBits_replicate]⟩

theorem length_filled (image : List UInt8) : (filled image).length = wordCount image * 4 := by
  rw [filled, List.length_append, List.length_replicate, wordCount]
  omega

theorem length_filledBits (image : List UInt8) :
    (filledBits image).length = wordCount image * 32 := by
  rw [filledBits, length_flatMap_byteBits, length_filled]
  omega

/-- Four bytes in a row are 32 bits in a row. -/
theorem flatMap_byteBits_slice (bytes : List UInt8) (start count : ℕ) :
    ((bytes.drop start).take count).flatMap byteBits =
      ((bytes.flatMap byteBits).drop (start * 8)).take (count * 8) := by
  rw [← take_flatMap_byteBits]
  congr 1
  by_cases hstart : start ≤ bytes.length
  · conv_rhs => rw [← List.take_append_drop start bytes, List.flatMap_append]
    rw [List.drop_left']
    rw [length_flatMap_byteBits, List.length_take_of_le hstart]
  · rw [List.drop_of_length_le (by omega), List.drop_of_length_le]
    · rfl
    · rw [length_flatMap_byteBits]
      omega

namespace Guarded

open Outcomes

/-! ### Guarded steps on words -/

/-- A difference of words. -/
def subWord (a b : UInt32) : Except Fault UInt32 :=
  if b ≤ a then .ok (a - b) else .error .overflow

/-- A word with ones in its first bits, fewer than 32 of them. -/
def maskBelow (count : ℕ) : Except Fault UInt32 := subWord (1 <<< UInt32.ofNat count) 1

/-- The position of the `k`-th one of a word, found by clearing the ones before it. -/
def selectInWord : (k : ℕ) → UInt32 → Except Fault ℕ
  | 0, w => .ok (trailingZeros w)
  | k + 1, w => do
    let less ← subWord w 1
    selectInWord k (w &&& less)

/-- A word of an image. Where the image ends within the word, zeros fill it up. -/
def wordAt (image : List UInt8) (i : ℕ) : Except Fault UInt32 :=
  match LittleEndian.slice? image (i * 4) 4 with
  | some bytes => .ok (wordOf bytes)
  | none =>
    let tail := image.drop (i * 4)
    if tail.length ≤ 4 then .ok (wordOf (tail ++ List.replicate (4 - tail.length) 0))
    else .error .pastEnd

/-- Clearing the ones before it leads to the `k`-th one, and never takes one off an empty word. -/
theorem selectInWord_eq_ok {k i : ℕ} {w : UInt32} (hi : positionOf true k (wordBits w) = some i) :
    selectInWord k w = .ok i := by
  induction k generalizing w with
  | zero => rw [selectInWord, trailingZeros, length_takeWhile_not hi]
  | succ k ih =>
    have hpos : w.toNat ≠ 0 := by
      intro hzero
      have hnone : (natBits 32 0).count true = 0 := by decide
      rw [wordBits, hzero, positionOf_eq_none_of_count_le (hnone.trans_le (Nat.zero_le _))] at hi
      exact absurd hi (by simp)
    have hle : (1 : UInt32) ≤ w := by
      rw [UInt32.le_iff_toNat_le]
      exact Nat.one_le_iff_ne_zero.mpr hpos
    rw [selectInWord, subWord, if_pos hle, ok_bind]
    refine ih ?_
    rw [wordBits, UInt32.toNat_and, UInt32.toNat_sub_of_le _ _ hle, ← hi]
    exact positionOf_and_pred 32 k hpos

/-- A mask leaves the ones in front of a place. -/
theorem maskBelow_eq_ok {count : ℕ} (hcount : count < 32) :
    ∃ mask, maskBelow count = .ok mask ∧
      ∀ w, countOnes (w &&& mask) = ((wordBits w).take count).count true := by
  have hpow : 2 ^ count < 2 ^ 32 := Nat.pow_lt_pow_right (by decide) hcount
  have hfits : count < UInt32.size := hcount.trans (by decide)
  have hshift : (1 <<< UInt32.ofNat count : UInt32).toNat = 2 ^ count := by
    rw [UInt32.toNat_shiftLeft, UInt32.toNat_ofNat_of_lt' hfits, Nat.mod_eq_of_lt hcount,
      UInt32.toNat_one, Nat.shiftLeft_eq, Nat.one_mul, Nat.mod_eq_of_lt hpow]
  have hle : (1 : UInt32) ≤ 1 <<< UInt32.ofNat count := by
    rw [UInt32.le_iff_toNat_le, hshift]
    exact Nat.one_le_two_pow
  refine ⟨_, if_pos hle, fun w ↦ ?_⟩
  have hbits : wordBits (w &&& (1 <<< UInt32.ofNat count - 1)) =
      (wordBits w).take count ++ List.replicate (32 - count) false := by
    refine List.ext_getElem (by simp; omega) fun i hi _ ↦ ?_
    have hmask : (w &&& (1 <<< UInt32.ofNat count - 1)).toNat.testBit i =
        (w.toNat.testBit i && decide (i < count)) := by
      rw [UInt32.toNat_and, UInt32.toNat_sub_of_le _ _ hle, hshift, Nat.testBit_and]
      exact congrArg _ (Nat.testBit_two_pow_sub_one count i)
    by_cases hlt : i < count
    · rw [List.getElem_append_left (by simp; omega)]
      simpa [wordBits, natBits, hlt] using hmask
    · rw [List.getElem_append_right (by simp; omega)]
      simpa [wordBits, natBits, hlt] using hmask
  rw [countOnes, hbits, List.count_append, List.count_replicate]
  simp

/-- Reading a word gives its 32 bits of the image in whole words. -/
theorem exists_wordAt_eq_ok {image : List UInt8} {i : ℕ} (hi : i < wordCount image) :
    ∃ w, wordAt image i = .ok w ∧ wordBits w = ((filledBits image).drop (i * 32)).take 32 := by
  have hlength := length_filled image
  refine ⟨wordOf (((filled image).drop (i * 4)).take 4), ?_, ?_⟩
  · rw [wordAt, LittleEndian.slice?]
    by_cases hwhole : i * 4 + 4 ≤ image.length
    · rw [if_pos hwhole, filled, Lists.take_drop_append hwhole]
    · have hlast : wordCount image * 4 - image.length = 4 - (image.drop (i * 4)).length := by
        rw [List.length_drop]
        rw [wordCount] at hi ⊢
        omega
      have hstart : i * 4 ≤ image.length := by
        rw [wordCount] at hi
        omega
      rw [if_neg hwhole]
      dsimp only
      rw [if_pos (by rw [List.length_drop]; omega), filled,
        List.drop_append_of_le_length hstart, hlast, List.take_of_length_le]
      rw [List.length_append, List.length_replicate, List.length_drop]
      omega
  · rw [wordBits_wordOf, flatMap_byteBits_slice, filledBits]
    · congr 2
      omega
    · rw [List.length_take, List.length_drop]
      omega

end Guarded

end KanaKanji
