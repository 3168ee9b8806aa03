/-!
# Little-endian integers

An integer written at a width takes exactly that many bytes, the lowest first, and whatever does
not fit is lost; `take?` reads it off the front of a list of bytes, which has to hold enough of
them. `slice?` cuts a range out of a list of bytes, where the list reaches that far.

Main statements: `decode_encode`, `decode_inj` (at one width different bytes stand for different
integers), `take?_encode_append` (an integer written in front of anything reads back, and leaves
what follows) and `slice?_eq_some_iff`.
-/

set_option autoImplicit false

namespace KanaKanji.LittleEndian

/-- The number of integers that can be written at a width. -/
def capacity : Nat → Nat
  | 0 => 1
  | width + 1 => 256 * capacity width

/-- An integer at a width in bytes, the lowest byte first. -/
def encode : Nat → Nat → List UInt8
  | 0, _ => []
  | width + 1, value => UInt8.ofNat (value % 256) :: encode width (value / 256)

/-- The integer that the bytes stand for, the lowest byte first. -/
def decode : List UInt8 → Nat
  | [] => 0
  | b :: rest => b.toNat + 256 * decode rest

/-- The bytes from the front, if there are enough of them, and the rest. -/
def splitAt? (count : Nat) (bytes : List UInt8) : Option (List UInt8 × List UInt8) :=
  if count ≤ bytes.length then some (bytes.take count, bytes.drop count) else none

/-- An integer of a width off the front, and the bytes after it. -/
def take? (width : Nat) (bytes : List UInt8) : Option (Nat × List UInt8) :=
  (splitAt? width bytes).map fun (front, rest) ↦ (decode front, rest)

/-- The bytes of a range, if the list reaches that far. -/
def slice? (bytes : List UInt8) (start size : Nat) : Option (List UInt8) :=
  if start + size ≤ bytes.length then some ((bytes.drop start).take size) else none

@[simp] theorem length_encode (width value : Nat) : (encode width value).length = width := by
  induction width generalizing value with
  | zero => rfl
  | succ width ih => simp [encode, ih]

/-- An integer that fits the width is read back from what was written. -/
theorem decode_encode {width value : Nat} (h : value < capacity width) :
    decode (encode width value) = value := by
  induction width generalizing value with
  | zero => simp only [capacity] at h; simp only [encode, decode]; omega
  | succ width ih =>
    have hrest : value / 256 < capacity width := Nat.div_lt_of_lt_mul h
    simp only [encode, decode, ih hrest, UInt8.toNat_ofNat']
    omega

/-- The number that the first bytes stand for can be written at their width. -/
theorem decode_take_lt (width : Nat) (bytes : List UInt8) :
    decode (bytes.take width) < capacity width := by
  induction width generalizing bytes with
  | zero => exact Nat.zero_lt_one
  | succ width ih =>
    cases bytes with
    | nil =>
      have hnone := ih []
      simp only [List.take_nil, decode, capacity] at hnone ⊢
      omega
    | cons b rest =>
      have hb := b.toNat_lt
      have hrest := ih rest
      simp only [List.take_succ_cons, decode, capacity]
      omega

/-- At one width different bytes stand for different integers. -/
theorem decode_inj {bytes other : List UInt8} (hlength : bytes.length = other.length) :
    decode bytes = decode other ↔ bytes = other := by
  refine ⟨fun hsame ↦ ?_, fun hsame ↦ hsame ▸ rfl⟩
  induction bytes generalizing other with
  | nil => exact (List.length_eq_zero_iff.mp hlength.symm).symm
  | cons b rest ih =>
    cases other with
    | nil => simp at hlength
    | cons c others =>
      have hb := b.toNat_lt
      have hc := c.toNat_lt
      simp only [decode] at hsame
      have hfirst : b = c := UInt8.toNat_inj.mp (by omega)
      rw [hfirst, ih (by simpa using hlength) (by omega)]

/-- An integer written in front of anything reads back, and leaves what follows. -/
theorem take?_encode_append {width value : Nat} (h : value < capacity width) (rest : List UInt8) :
    take? width (encode width value ++ rest) = some (value, rest) := by
  have hlen := length_encode width value
  rw [take?, splitAt?, if_pos (by simp [hlen])]
  rw [List.take_append_of_le_length (by omega), List.take_of_length_le (by omega),
    List.drop_append_of_le_length (by omega), List.drop_of_length_le (by omega)]
  simp [decode_encode h]

theorem slice?_eq_some_iff {bytes part : List UInt8} {start size : Nat} :
    slice? bytes start size = some part ↔
      start + size ≤ bytes.length ∧ (bytes.drop start).take size = part := by
  unfold slice?
  split
  · next h => simp [h]
  · next h => simp [h]

end KanaKanji.LittleEndian
