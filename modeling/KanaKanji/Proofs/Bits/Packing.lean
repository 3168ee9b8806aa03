import Mathlib
import KanaKanji.Bits.Stream
import KanaKanji.Proofs.Bits.RankSelect

/-!
# Bits packed into bytes

What a bit stream holds is read off its bytes: they spell the bits pushed so far and after them
fewer than eight zeros (`BitStream.Holds`). A push adds one bit to that (`holds_push`), and padding
adds zeros up to a whole number of 32-bit words (`holds_padTo32`).

`flatMap_byteBits_packed` and `length_packed` are what a reader of the padded bytes of a list of
bits needs: the bits stand there in order with only zeros behind them, and the size in bytes is
known.
-/

set_option autoImplicit false

namespace KanaKanji

/-! ### Single bits of a byte -/

/-- The bits of a disjunction are the disjunctions of the bits. -/
theorem byteBits_or (x y : UInt8) :
    byteBits (x ||| y) = List.zipWith or (byteBits x) (byteBits y) := by
  apply List.ext_getElem
  · simp
  · intro i _ _
    simp [byteBits]

/-- One bit, moved up to its place within a byte. -/
theorem byteBits_shiftLeft (bit : Bool) {place : ℕ} (hplace : place < 8) :
    byteBits (bit.toUInt8 <<< UInt8.ofNat place) =
      List.replicate place false ++ bit :: List.replicate (7 - place) false := by
  revert bit place
  decide

/-- Putting a bit behind the first bits of a byte whose others are zero leaves those as they
are. -/
theorem byteBits_or_shiftLeft {front : List Bool} {x : UInt8} (bit : Bool)
    (hfront : front.length < 8)
    (hx : byteBits x = front ++ List.replicate (8 - front.length) false) :
    byteBits (x ||| bit.toUInt8 <<< UInt8.ofNat front.length) =
      front ++ bit :: List.replicate (7 - front.length) false := by
  have hzeros : 8 - front.length = (7 - front.length) + 1 := by omega
  rw [byteBits_or, hx, byteBits_shiftLeft bit hfront, List.zipWith_append (by simp), hzeros,
    List.replicate_succ, List.zipWith_cons_cons]
  congr 1
  · apply List.ext_getElem <;> simp
  · simp

namespace BitStream

/-- The stream consists of these bits: its bytes spell them, and fewer than eight zeros after
them. -/
def Holds (s : BitStream) (bits : List Bool) : Prop :=
  s.length = bits.length ∧
    ∃ spare < 8, s.toBytes.flatMap byteBits = bits ++ List.replicate spare false

theorem holds_empty : empty.Holds [] :=
  ⟨rfl, 0, by decide, rfl⟩

/-- The number of bytes is just what the bits need. -/
theorem size_eq_of_holds {s : BitStream} {bits : List Bool} {spare : ℕ}
    (hbits : s.toBytes.flatMap byteBits = bits ++ List.replicate spare false) :
    s.image.size * 8 = bits.length + spare := by
  have hlength := congrArg List.length hbits
  rwa [length_flatMap_byteBits, List.length_append, List.length_replicate, toBytes,
    Array.length_toList] at hlength

/-- Changing the last byte of a list of bytes. -/
theorem toList_modify_last (image : Array UInt8) (front : List UInt8) (last : UInt8)
    (f : UInt8 → UInt8) (himage : image.toList = front ++ [last]) :
    (image.modify (image.size - 1) f).toList = front ++ [f last] := by
  have hsize : image.size - 1 = front.length := by
    rw [← Array.length_toList, himage, List.length_append, List.length_singleton,
      Nat.add_sub_cancel]
  rw [Array.toList_modify, himage, hsize, List.modify_eq_take_cons_drop (by simp)]
  simp

/-- Bits that end within the last byte are those of the bytes before it and the first of its own. -/
theorem exists_tail_of_flatMap_byteBits {front : List UInt8} {last : UInt8} {bits : List Bool}
    {spare : ℕ} (hspare : spare < 8)
    (hbits : (front ++ [last]).flatMap byteBits = bits ++ List.replicate spare false) :
    ∃ tail, bits = front.flatMap byteBits ++ tail ∧
      byteBits last = tail ++ List.replicate spare false := by
  have hlength := congrArg List.length hbits
  rw [length_flatMap_byteBits, List.length_append, List.length_append, List.length_replicate,
    List.length_singleton] at hlength
  rw [List.flatMap_append, List.flatMap_singleton] at hbits
  rcases List.append_eq_append_iff.mp hbits with ⟨tail, hfront, hlast⟩ | ⟨tail, hfront, hlast⟩
  · exact ⟨tail, hfront, hlast⟩
  · have hshort := congrArg List.length hfront
    rw [List.length_append, length_flatMap_byteBits] at hshort
    have hnil : tail = [] := List.eq_nil_of_length_eq_zero (by omega)
    subst hnil
    exact ⟨[], by simpa using hfront.symm, by simpa using hlast.symm⟩

/-- A push adds one bit behind the others. -/
theorem holds_push {s : BitStream} {bits : List Bool} (hs : s.Holds bits) (bit : Bool) :
    (s.push bit).Holds (bits ++ [bit]) := by
  obtain ⟨hlength, spare, hspare, hbits⟩ := hs
  have hsize := size_eq_of_holds hbits
  unfold push
  split
  · next haligned =>
    obtain rfl : spare = 0 := by omega
    refine ⟨by simp [hlength], 7, by decide, ?_⟩
    have hbyte : byteBits bit.toUInt8 = [bit] ++ List.replicate 7 false := by
      cases bit <;> decide
    rw [toBytes, Array.toList_push, List.flatMap_append, List.flatMap_singleton, hbyte]
    rw [toBytes, List.replicate_zero, List.append_nil] at hbits
    rw [hbits, List.append_assoc]
  · next hpartial =>
    refine ⟨by simp [hlength], spare - 1, by omega, ?_⟩
    -- The last byte holds the bits behind the last multiple of eight.
    obtain ⟨front, last, himage⟩ : ∃ front last, s.image.toList = front ++ [last] := by
      rcases List.eq_nil_or_concat s.image.toList with hnil | ⟨front, last, himage⟩
      · have hzero : s.image.size = 0 := by rw [← Array.length_toList, hnil, List.length_nil]
        omega
      · exact ⟨front, last, by rw [himage, List.concat_eq_append]⟩
    have hcount : front.length + 1 = s.image.size := by
      rw [← Array.length_toList, himage, List.length_append, List.length_singleton]
    rw [toBytes, himage] at hbits
    obtain ⟨tail, rfl, hlast⟩ := exists_tail_of_flatMap_byteBits hspare hbits
    rw [List.length_append, length_flatMap_byteBits] at hlength hsize
    have htail : s.length % 8 = tail.length := by omega
    have hzeros : spare = 8 - tail.length := by omega
    rw [htail, toBytes, toList_modify_last s.image front last _ himage, List.flatMap_append,
      List.flatMap_singleton, byteBits_or_shiftLeft bit (by omega) (hzeros ▸ hlast), hzeros]
    simp [Nat.sub_sub]

/-- Pushing bits one after another holds them in order. -/
theorem holds_pushAll {s : BitStream} {before : List Bool} (hs : s.Holds before)
    (bits : List Bool) : (s.pushAll bits).Holds (before ++ bits) := by
  induction bits generalizing s before with
  | nil => simpa [pushAll] using hs
  | cons bit rest ih =>
    have hrest := ih (holds_push hs bit)
    rwa [List.append_assoc, List.singleton_append] at hrest

/-- Zero bytes are eight zeros each. -/
theorem flatMap_byteBits_replicate (count : ℕ) :
    (List.replicate count 0).flatMap byteBits = List.replicate (count * 8) false := by
  induction count with
  | zero => rfl
  | succ count ih =>
    have hzero : byteBits 0 = List.replicate 8 false := by decide
    rw [List.replicate_succ, List.flatMap_cons, ih, hzero, ← List.replicate_add]
    congr 1
    omega

/-- Padding fills up with zeros to a whole number of 32-bit words and holds those too. -/
theorem holds_padTo32 {s : BitStream} {bits : List Bool} (hs : s.Holds bits) :
    ∃ zeros, s.padTo32.Holds (bits ++ List.replicate zeros false) ∧
      s.padTo32.image.size = (bits.length + 31) / 32 * 4 := by
  obtain ⟨-, spare, hspare, hbits⟩ := hs
  have hsize := size_eq_of_holds hbits
  set added := (4 - s.image.size % 4) % 4 with hadded
  have hspelled : s.padTo32.toBytes.flatMap byteBits =
      bits ++ List.replicate (spare + added * 8) false := by
    rw [toBytes] at hbits
    rw [toBytes, padTo32, Array.toList_append, Array.toList_replicate, List.flatMap_append, hbits,
      flatMap_byteBits_replicate, List.append_assoc, ← List.replicate_add]
  have hpadded : s.padTo32.image.size = s.image.size + added := by
    rw [padTo32, Array.size_append, Array.size_replicate]
  refine ⟨spare + added * 8, ⟨?_, 0, by decide, by simpa using hspelled⟩, by omega⟩
  have hwhole := size_eq_of_holds hspelled
  rw [List.length_append, List.length_replicate, ← hwhole]
  rfl

end BitStream

/-! ### The padded bytes of a list of bits -/

/-- The padded bytes of a list of bits spell it, and zeros after it. -/
theorem flatMap_byteBits_packed (bits : List Bool) :
    ∃ zeros, (BitStream.empty.pushAll bits).padTo32.toBytes.flatMap byteBits =
      bits ++ List.replicate zeros false := by
  obtain ⟨zeros, ⟨-, spare, -, hbits⟩, -⟩ :=
    BitStream.holds_padTo32 (BitStream.holds_pushAll BitStream.holds_empty bits)
  rw [List.nil_append] at hbits
  exact ⟨zeros + spare, by rw [hbits, List.append_assoc, ← List.replicate_add]⟩

/-- The padded bytes of a list of bits take four for each 32 bits begun. -/
theorem length_packed (bits : List Bool) :
    (BitStream.empty.pushAll bits).padTo32.toBytes.length = (bits.length + 31) / 32 * 4 := by
  obtain ⟨-, -, hsize⟩ :=
    BitStream.holds_padTo32 (BitStream.holds_pushAll BitStream.holds_empty bits)
  rwa [List.nil_append, ← Array.length_toList] at hsize

end KanaKanji
