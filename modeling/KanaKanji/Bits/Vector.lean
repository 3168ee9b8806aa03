/-!
# Bit vectors with rank and select

A bit vector reads a list of bytes as bits, the lowest bit of each byte first, and answers how many
bits of a kind stand before a position (`rank1`, `rank0`) and where the `n`-th bit of a kind stands
(`select1`, `select0`). A directory holds the number of ones before each byte: a rank adds to one of
its entries the ones within a byte, and a select finds the byte by halving the directory and the bit
by scanning that byte.
-/

set_option autoImplicit false

namespace KanaKanji

/-! ### Bits of bytes -/

/-- The bits of a byte, the lowest first. -/
def byteBits (b : UInt8) : List Bool := (List.range 8).map b.toNat.testBit

/-- The number of ones in a byte. -/
def byteOnes (b : UInt8) : Nat := (byteBits b).count true

/-- The position of the `n`-th of the bits of a kind, counted from zero. -/
def positionOf (kind : Bool) : Nat → List Bool → Option Nat
  | _, [] => none
  | n, b :: rest =>
    if b = kind then
      match n with
      | 0 => some 0
      | n + 1 => (positionOf kind n rest).map (· + 1)
    else (positionOf kind n rest).map (· + 1)

/-- The number of ones before each of the bytes and after the last, on top of a number given. -/
def runningOnes (before : Nat) : List UInt8 → List Nat
  | [] => [before]
  | b :: rest => before :: runningOnes (before + byteOnes b) rest

/-- The last index in `low ≤ i < high` at which the test holds, if it holds at `low` and up to some
index and nowhere after it. -/
def lastWhere (test : Nat → Bool) (low high : Nat) : Nat :=
  if high ≤ low + 1 then low
  else
    let middle := (low + high) / 2
    if test middle then lastWhere test middle high else lastWhere test low middle
termination_by high - low

/-! ### The vector -/

/-- A list of bytes as a vector of bits, with the number of ones before each byte. -/
structure BitVector where
  bytes : Array UInt8
  onesBefore : Array Nat
  onesBefore_eq : onesBefore = (runningOnes 0 bytes.toList).toArray

namespace BitVector

/-- The vector of the bits of a list of bytes. -/
def ofBytes (bytes : List UInt8) : BitVector where
  bytes := bytes.toArray
  onesBefore := (runningOnes 0 bytes).toArray
  onesBefore_eq := rfl

/-- The bits of the vector, in order. -/
def toList (v : BitVector) : List Bool := v.bytes.toList.flatMap byteBits

/-- The number of bits. -/
def length (v : BitVector) : Nat := v.bytes.size * 8

/-- The number of ones before a byte. -/
def onesBeforeByte (v : BitVector) (i : Nat) : Nat := v.onesBefore.getD i 0

/-- The number of zeros before a byte. -/
def zerosBeforeByte (v : BitVector) (i : Nat) : Nat := i * 8 - v.onesBeforeByte i

/-- The number of ones. -/
def ones (v : BitVector) : Nat := v.onesBeforeByte v.bytes.size

/-- The number of zeros. -/
def zeros (v : BitVector) : Nat := v.length - v.ones

/-- The bit at a position; every position past the end reads as zero. -/
def get (v : BitVector) (i : Nat) : Bool :=
  if h : i / 8 < v.bytes.size then v.bytes[i / 8].toNat.testBit (i % 8) else false

/-- The number of ones before a position, all of them if the position is past the end. -/
def rank1 (v : BitVector) (i : Nat) : Nat :=
  if h : i / 8 < v.bytes.size then
    v.onesBeforeByte (i / 8) + ((byteBits v.bytes[i / 8]).take (i % 8)).count true
  else v.ones

/-- The number of zeros before a position, all of them if the position is past the end. -/
def rank0 (v : BitVector) (i : Nat) : Nat := min i v.length - v.rank1 i

/-- The position of the `n`-th bit of a kind, given the number of them before each byte. -/
def selectWith (v : BitVector) (kind : Bool) (before : Nat → Nat) (n : Nat) : Option Nat :=
  if n < before v.bytes.size then
    let byte := lastWhere (fun i ↦ before i ≤ n) 0 v.bytes.size
    (v.bytes[byte]?).bind fun b ↦
      (positionOf kind (n - before byte) (byteBits b)).map (byte * 8 + ·)
  else none

/-- The position of the `n`-th one, counted from zero. -/
def select1 (v : BitVector) (n : Nat) : Option Nat := v.selectWith true v.onesBeforeByte n

/-- The position of the `n`-th zero, counted from zero. -/
def select0 (v : BitVector) (n : Nat) : Option Nat := v.selectWith false v.zerosBeforeByte n

/-- The summary that stands for a vector in messages. -/
def describe (v : BitVector) : String :=
  s!"BitVectorIndex \x7b len: {v.length}, ones: {v.ones} \x7d"

theorem lt_length_of_get {v : BitVector} {i : Nat} (h : v.get i = true) : i < v.length := by
  unfold get at h
  split at h
  · unfold length; omega
  · exact absurd h (by decide)

/-- The number of ones in a row from a position on. -/
def runOfOnes (v : BitVector) (i : Nat) : Nat :=
  if h : v.get i = true then
    have := lt_length_of_get h
    v.runOfOnes (i + 1) + 1
  else 0
termination_by v.length - i

end BitVector

end KanaKanji
