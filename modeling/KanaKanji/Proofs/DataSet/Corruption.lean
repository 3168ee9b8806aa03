import Mathlib
import KanaKanji.DataFile
import KanaKanji.Proofs.Bytes.Crc32
import KanaKanji.Proofs.Lists

/-!
# Damaged blobs

A blob that passes its checks no longer does once one of its bytes is another
(`verify_set_ne_ok`), and so it is opened no more, neither as a data set nor as a data file
(`refused_of_damaged_byte`). Whether a draft gave the blob does not matter.

There are two cases. The total size is given by the length of a blob, and the stored checksum by the
bytes before it, so of two blobs of one length that agree in these bytes at most one passes
(`eq_of_verify`): the damage cannot lie behind them. Where it lies within them the stored checksum
is what it was, but the bytes have another one (`Crc32.checksum_append_cons_inj`).
-/

set_option autoImplicit false

namespace KanaKanji.DataSet

/-! ### The checks -/

/-- The number of bytes that the checksum of a blob is taken of. -/
def checkedLength (bytes : List UInt8) : ℕ := bytes.length - sizeFieldLength - checksumLength

/-- The checksum that a blob stores, as a number. -/
def storedChecksum (bytes : List UInt8) : ℕ :=
  LittleEndian.decode ((bytes.drop (checkedLength bytes)).take checksumLength)

/-- The total size that a blob stores. -/
def storedSize (bytes : List UInt8) : ℕ :=
  LittleEndian.decode (bytes.drop (bytes.length - sizeFieldLength))

variable {bytes other : List UInt8}

/-- A blob passes just if it has a tail, which gives its length and the checksum of what is before
the checksum. -/
theorem verify_eq_ok_iff :
    verify bytes = .ok () ↔
      tailLength ≤ bytes.length ∧ storedSize bytes = bytes.length ∧
        storedChecksum bytes = (Crc32.checksum (bytes.take (checkedLength bytes))).toNat := by
  unfold verify
  extract_lets size sizeAt checksumAt expected stored computed
  by_cases htail : size < tailLength
  · rw [if_pos htail]
    exact iff_of_false (by simp) fun hpasses ↦ absurd htail (not_lt.mpr hpasses.1)
  by_cases hsize : expected = size
  case neg =>
    rw [if_neg htail, if_pos hsize]
    exact iff_of_false (by simp) fun hpasses ↦ hsize hpasses.2.1
  by_cases hsum : stored = computed
  case neg =>
    rw [if_neg htail, if_neg (not_not.mpr hsize), if_pos hsum]
    exact iff_of_false (by simp) fun hpasses ↦ hsum hpasses.2.2
  rw [if_neg htail, if_neg (not_not.mpr hsize), if_neg (not_not.mpr hsum)]
  exact iff_of_true rfl ⟨not_lt.mp htail, hsize, hsum⟩

/-- Of two blobs of one length that agree in the bytes that the checksum is taken of, at most one
passes. -/
theorem eq_of_verify (hbytes : verify bytes = .ok ()) (hother : verify other = .ok ())
    (hlength : bytes.length = other.length)
    (hchecked : bytes.take (checkedLength bytes) = other.take (checkedLength bytes)) :
    bytes = other := by
  obtain ⟨htail, hsize, hsum⟩ := verify_eq_ok_iff.mp hbytes
  obtain ⟨-, hsize', hsum'⟩ := verify_eq_ok_iff.mp hother
  have hplace : checkedLength other = checkedLength bytes := by
    rw [checkedLength, checkedLength, hlength]
  have hsizeAt : bytes.length - sizeFieldLength = checkedLength bytes + checksumLength := by
    have hfields : sizeFieldLength = 8 ∧ checksumLength = 4 ∧ tailLength = 20 := ⟨rfl, rfl, rfl⟩
    rw [checkedLength]
    omega
  have hsizes : bytes.drop (checkedLength bytes + checksumLength) =
      other.drop (checkedLength bytes + checksumLength) := by
    rw [storedSize, hsizeAt] at hsize
    rw [storedSize, ← hlength, hsizeAt] at hsize'
    refine (LittleEndian.decode_inj ?_).mp (hsize.trans hsize'.symm)
    rw [List.length_drop, List.length_drop, hlength]
  have hsums : (bytes.drop (checkedLength bytes)).take checksumLength =
      (other.drop (checkedLength bytes)).take checksumLength := by
    rw [storedChecksum, hchecked] at hsum
    rw [storedChecksum, hplace] at hsum'
    refine (LittleEndian.decode_inj ?_).mp (hsum.trans hsum'.symm)
    rw [List.length_take, List.length_take, List.length_drop, List.length_drop, hlength]
  rw [← List.take_append_drop (checkedLength bytes) bytes,
    ← List.take_append_drop checksumLength (bytes.drop (checkedLength bytes)), List.drop_drop,
    hchecked, hsums, hsizes, ← List.drop_drop, List.take_append_drop, List.take_append_drop]

/-! ### One other byte -/

/-- Two blobs that agree but for one byte do not both pass. -/
theorem eq_of_verify_append_cons {front back : List UInt8} {byte other : UInt8}
    (hbyte : verify (front ++ byte :: back) = .ok ())
    (hother : verify (front ++ other :: back) = .ok ()) : byte = other := by
  have hlength : (front ++ byte :: back).length = (front ++ other :: back).length := by simp
  by_cases hwithin : front.length < checkedLength (front ++ byte :: back)
  · obtain ⟨-, -, hsum⟩ := verify_eq_ok_iff.mp hbyte
    obtain ⟨-, -, hsum'⟩ := verify_eq_ok_iff.mp hother
    have hplace : checkedLength (front ++ other :: back) =
        checkedLength (front ++ byte :: back) := by
      rw [checkedLength, checkedLength, hlength]
    -- The damage leaves the stored checksum alone.
    obtain ⟨n, hn⟩ : ∃ n, checkedLength (front ++ byte :: back) = front.length + (n + 1) :=
      ⟨checkedLength (front ++ byte :: back) - front.length - 1, by omega⟩
    rw [storedChecksum, hn, List.drop_length_add_append, List.drop_succ_cons,
      List.take_length_add_append, List.take_succ_cons] at hsum
    rw [storedChecksum, hplace, hn, List.drop_length_add_append, List.drop_succ_cons,
      List.take_length_add_append, List.take_succ_cons] at hsum'
    have hsame := UInt32.toNat_inj.mp (hsum.symm.trans hsum')
    exact (Crc32.checksum_append_cons_inj front _).mp hsame
  · have hchecked := eq_of_verify hbyte hother hlength (by
      rw [List.take_append_of_le_length (not_lt.mp hwithin),
        List.take_append_of_le_length (not_lt.mp hwithin)])
    exact (List.cons.inj (List.append_cancel_left hchecked)).1

/-- A blob that passes does not pass with another byte at any place. -/
theorem verify_set_ne_ok {i : ℕ} {byte : UInt8} (hverify : verify bytes = .ok ())
    (hi : i < bytes.length) (hbyte : byte ≠ bytes[i]) : verify (bytes.set i byte) ≠ .ok () := by
  intro hdamaged
  rw [Lists.eq_take_append_cons_drop (List.getElem?_eq_getElem hi)] at hverify
  rw [List.set_eq_take_append_cons_drop, if_pos hi] at hdamaged
  exact hbyte (eq_of_verify_append_cons hdamaged hverify)

/-! ### Opening -/

/-- A data set is opened only after its checks, and their error is the one that is told. -/
theorem ofBytes_eq_error {e : Error} (hverify : verify bytes = .error e) (magic : List UInt8) :
    Blob.ofBytes bytes magic = .error e := by
  rw [Blob.ofBytes, hverify]
  rfl

/-- A blob that passes its checks fails them with another byte at any place, and is then opened with
no magic and as no data file. -/
theorem refused_of_damaged_byte {i : ℕ} {byte : UInt8} (hverify : verify bytes = .ok ())
    (hi : i < bytes.length) (hbyte : byte ≠ bytes[i]) :
    ∃ e, verify (bytes.set i byte) = .error e ∧
      (∀ magic, Blob.ofBytes (bytes.set i byte) magic = .error e) ∧
        DataFile.ofBytes (bytes.set i byte) = .error (.dataSet e) := by
  rcases hdamaged : verify (bytes.set i byte) with e | ⟨⟩
  · refine ⟨e, rfl, ofBytes_eq_error hdamaged, ?_⟩
    rw [DataFile.ofBytes, ofBytes_eq_error hdamaged]
  · exact absurd hdamaged (verify_set_ne_ok hverify hi hbyte)

/-- The blob of a region of three bytes, the second of which is damaged. -/
theorem refused_of_damaged_byte_in_region :
    let bytes : List UInt8 :=
      defaultMagic ++ [1, 2, 3] ++ encodeDirectory [⟨"a", 7, 3⟩] ++ encodeNumber 33 ++
        [131, 30, 0, 250] ++ encodeNumber 63
    verify bytes = .ok () ∧ bytes[8]? = some 2 ∧
      ∃ e, verify (bytes.set 8 0) = .error e ∧
        (∀ magic, Blob.ofBytes (bytes.set 8 0) magic = .error e) ∧
          DataFile.ofBytes (bytes.set 8 0) = .error (.dataSet e) := by
  intro bytes
  have hverify : verify bytes = .ok () := by decide +kernel
  have hplace : bytes[8]? = some 2 := by decide +kernel
  obtain ⟨hi, hvalue⟩ := List.getElem?_eq_some_iff.mp hplace
  have hbyte : (0 : UInt8) ≠ bytes[8] := by
    rw [hvalue]
    decide
  exact ⟨hverify, hplace, refused_of_damaged_byte hverify hi hbyte⟩

end KanaKanji.DataSet
