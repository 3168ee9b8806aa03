import Mathlib
import KanaKanji.Bytes.Crc32

/-!
# What a checksum keeps apart

The polynomial has its lowest power in the highest bit, and that power is there. So after a step of
the register the highest bit tells which bit was shifted out (`getLsbD_shift_last`), and no two
registers lead to the same one (`shift_injective`). Feeding a byte is therefore injective in the
register and in the byte (`feed_left_injective`, `feed_right_injective`): two texts that differ in
one byte leave different registers behind that byte, and these stay different over whatever follows
(`checksum_append_cons_inj`).
-/

set_option autoImplicit false

namespace KanaKanji.Crc32

/-! ### One step -/

/-- The bit that a step shifts out is the lowest one. -/
theorem low_eq_one_iff (register : UInt32) :
    register &&& 1 = 1 ↔ register.toBitVec.getLsbD 0 = true := by
  rw [← UInt32.toBitVec_inj, UInt32.toBitVec_and]
  have hlow : register.toBitVec &&& 1#32 =
      BitVec.setWidth 32 (BitVec.ofBool (register.toBitVec.getLsbD 0)) :=
    BitVec.and_one_eq_setWidth_ofBool_getLsbD
  show register.toBitVec &&& 1#32 = 1#32 ↔ _
  rw [hlow]
  cases register.toBitVec.getLsbD 0 <;> decide

/-- The bits of a register after a step: each moves down by one place, and those of the polynomial
are added if the lowest was set. -/
theorem getLsbD_shift (register : UInt32) (i : ℕ) :
    (shift register).toBitVec.getLsbD i =
      (register.toBitVec.getLsbD (1 + i) ^^
        (register.toBitVec.getLsbD 0 && polynomial.toBitVec.getLsbD i)) := by
  rw [shift]
  by_cases hlow : register &&& 1 = 1
  · rw [if_pos hlow, (low_eq_one_iff register).mp hlow, UInt32.toBitVec_xor,
      UInt32.toBitVec_shiftRight]
    simp
  · have hclear : register.toBitVec.getLsbD 0 = false := by
      simpa using mt (low_eq_one_iff register).mpr hlow
    rw [if_neg hlow, hclear, UInt32.toBitVec_shiftRight]
    simp

/-- The highest bit after a step is the bit that was shifted out. -/
theorem getLsbD_shift_last (register : UInt32) :
    (shift register).toBitVec.getLsbD 31 = register.toBitVec.getLsbD 0 := by
  have hpolynomial : polynomial.toBitVec.getLsbD 31 = true := by decide
  rw [getLsbD_shift, hpolynomial, Bool.and_true, BitVec.getLsbD_of_ge _ _ (by omega),
    Bool.false_xor]

theorem shift_injective : Function.Injective shift := by
  intro register other hsame
  have hlow : register.toBitVec.getLsbD 0 = other.toBitVec.getLsbD 0 := by
    rw [← getLsbD_shift_last, ← getLsbD_shift_last, hsame]
  apply UInt32.toBitVec_inj.mp
  refine BitVec.eq_of_getLsbD_eq fun i _ ↦ ?_
  rcases i with _ | i
  · exact hlow
  · have hbit := congrArg (fun shifted ↦ shifted.toBitVec.getLsbD i) hsame
    simp only [getLsbD_shift, hlow, Bool.xor_left_inj] at hbit
    rwa [Nat.add_comm 1 i] at hbit

/-! ### Bytes -/

theorem feed_eq_iterate (register : UInt32) (byte : UInt8) :
    feed register byte = shift^[8] (register ^^^ byte.toUInt32) :=
  rfl

theorem feed_left_injective (byte : UInt8) : Function.Injective (feed · byte) := by
  intro register other hsame
  simp only [feed_eq_iterate] at hsame
  exact (UInt32.xor_left_inj _).mp (shift_injective.iterate 8 hsame)

theorem feed_right_injective (register : UInt32) : Function.Injective (feed register) := by
  intro byte other hsame
  rw [feed_eq_iterate, feed_eq_iterate] at hsame
  exact UInt8.toUInt32_inj.mp ((UInt32.xor_right_inj _).mp (shift_injective.iterate 8 hsame))

/-- Registers that differ still differ after the same bytes. -/
theorem foldl_feed_injective (bytes : List UInt8) :
    Function.Injective fun register ↦ bytes.foldl feed register := by
  induction bytes with
  | nil => exact fun _ _ hsame ↦ hsame
  | cons byte bytes ih => exact ih.comp (feed_left_injective byte)

/-- Of two texts that agree but for one byte the checksums agree only if the bytes do. -/
theorem checksum_append_cons_inj (front back : List UInt8) {byte other : UInt8} :
    checksum (front ++ byte :: back) = checksum (front ++ other :: back) ↔ byte = other := by
  rw [checksum, checksum, UInt32.not_inj, List.foldl_append, List.foldl_append, List.foldl_cons,
    List.foldl_cons]
  exact (foldl_feed_injective back).eq_iff.trans (feed_right_injective _).eq_iff

end KanaKanji.Crc32
