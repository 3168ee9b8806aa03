import KanaKanji.Bytes.LittleEndian

/-!
# Bit streams

A stream of bits under construction. Bits fill each byte from the lowest upwards, and a byte is
added when the bits before it fill all others, so the image always has just enough bytes and every
bit of it past the end of the stream is zero. `padTo32` closes the image at a whole number of
32-bit words and goes on behind it.
-/

set_option autoImplicit false

namespace KanaKanji

/-- Why a stream refuses a value. -/
inductive BitStreamError
  | invalidBit (value : UInt8)
  | valueOutOfRange (value : Nat)
  deriving DecidableEq, Repr

/-- The message for a refused value. -/
def BitStreamError.message : BitStreamError → String
  | .invalidBit value => s!"bit must be 0 or 1, got {value}"
  | .valueOutOfRange value => s!"value {value} does not fit in 32 bits"

/-- A stream of bits and the bytes that hold them. -/
structure BitStream where
  image : Array UInt8 := #[]
  length : Nat := 0
  deriving DecidableEq, Repr, Inhabited

namespace BitStream

/-- The stream without bits. -/
def empty : BitStream := {}

/-- The stream with one more bit. -/
def push (s : BitStream) (bit : Bool) : BitStream :=
  if s.length % 8 = 0 then
    { image := s.image.push bit.toUInt8, length := s.length + 1 }
  else
    let mask := bit.toUInt8 <<< UInt8.ofNat (s.length % 8)
    { image := s.image.modify (s.image.size - 1) (· ||| mask), length := s.length + 1 }

/-- The stream with one more bit, given as a number that has to be zero or one. -/
def pushNumber (s : BitStream) (bit : UInt8) : Except BitStreamError BitStream :=
  if bit ≤ 1 then .ok (s.push (bit == 1)) else .error (.invalidBit bit)

/-- The stream with further bits, in order. -/
def pushAll (s : BitStream) (bits : List Bool) : BitStream := bits.foldl push s

/-- The stream filled with zero bits up to a whole number of 32-bit words. -/
def padTo32 (s : BitStream) : BitStream :=
  let image := s.image ++ Array.replicate ((4 - s.image.size % 4) % 4) 0
  { image, length := image.size * 8 }

/-- The bytes of the image. -/
def toBytes (s : BitStream) : List UInt8 := s.image.toList

end BitStream

/-- A number as four bytes, the lowest first; it has to fit in them. -/
def word32 (value : Nat) : Except BitStreamError (List UInt8) :=
  if value < UInt32.size then .ok (LittleEndian.encode 4 value) else .error (.valueOutOfRange value)

end KanaKanji
