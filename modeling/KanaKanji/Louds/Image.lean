import KanaKanji.Bits.Stream

/-!
# The stored form of a trie

A stored trie is a header of four 32-bit integers and three areas: the degrees of the nodes in unary
(`degrees`), one bit per node that says whether a key ends there (`terminals`), and the label of the
edge into each node (`labels`). The header gives the size of the first two areas, the width of a
label in bits and the number of labels.

`Image.toBytes` writes an image and `Image.ofBytes` reads one, refusing bytes that are too short, a
label width other than eight bits and an image without a root.
-/

set_option autoImplicit false

namespace KanaKanji.Louds

/-- Why a trie cannot be stored or opened. -/
inductive Error
  | truncated
  | unsupportedEdgeWidth (bits : Nat)
  | emptyEdgeTable
  | edgeCountMismatch
  | terminalsTooShort
  | stream (cause : BitStreamError)
  deriving DecidableEq, Repr

/-- The message for a trie that cannot be stored or opened. -/
def Error.message : Error → String
  | .truncated => "LOUDS image is truncated"
  | .unsupportedEdgeWidth bits => s!"unsupported edge label width: {bits} bits (expected 8)"
  | .emptyEdgeTable => "LOUDS image has an empty edge table"
  | .edgeCountMismatch => "LOUDS image is inconsistent: edge count differs from LOUDS one-bits"
  | .terminalsTooShort => "LOUDS image is inconsistent: terminal bitmap shorter than node count"
  | .stream cause => s!"bit stream error: {cause.message}"

/-- The three areas of a stored trie. -/
structure Image where
  degrees : List UInt8
  terminals : List UInt8
  labels : List UInt8
  deriving DecidableEq, Repr

/-- The width of a label in bits. -/
def labelBits : Nat := 8

/-- A number for the header, which has to fit in 32 bits. -/
def headerField (value : Nat) : Except Error (List UInt8) := (word32 value).mapError .stream

/-- The stored form of an image. -/
def Image.toBytes (image : Image) : Except Error (List UInt8) := do
  let degreesSize ← headerField image.degrees.length
  let terminalsSize ← headerField image.terminals.length
  let width ← headerField labelBits
  let labelCount ← headerField image.labels.length
  return degreesSize ++ terminalsSize ++ width ++ labelCount ++
    image.degrees ++ image.terminals ++ image.labels

/-- A number of the header and the bytes after it. -/
def takeField (bytes : List UInt8) : Except Error (Nat × List UInt8) :=
  match LittleEndian.take? 4 bytes with
  | some r => .ok r
  | none => .error .truncated

/-- The image that the bytes begin with; bytes after it are of no account. -/
def Image.ofBytes (bytes : List UInt8) : Except Error Image := do
  let (degreesSize, rest) ← takeField bytes
  let (terminalsSize, rest) ← takeField rest
  let (width, rest) ← takeField rest
  let (labelCount, rest) ← takeField rest
  if width ≠ labelBits then throw (.unsupportedEdgeWidth width)
  if labelCount = 0 then throw .emptyEdgeTable
  if rest.length < degreesSize + terminalsSize + labelCount then throw .truncated
  return {
    degrees := rest.take degreesSize
    terminals := (rest.drop degreesSize).take terminalsSize
    labels := (rest.drop (degreesSize + terminalsSize)).take labelCount }

end KanaKanji.Louds
