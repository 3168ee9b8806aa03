import KanaKanji.Bytes.Crc32
import KanaKanji.DataSet.Directory

/-!
# Data sets under construction

A draft starts with magic bytes and takes regions one after another. Each region has a name of its
own and starts at a multiple of its alignment, behind zero bytes where needed. The finished blob is
the image of the draft followed by the directory, the size of the directory, the CRC-32 of all bytes
so far and the size of the whole blob.
-/

set_option autoImplicit false

namespace KanaKanji.DataSet

/-- The magic bytes of a data set that asks for no others. -/
def defaultMagic : List UInt8 := [0xEF, 0x4B, 0x41, 0x4E, 0x41, 0x0D, 0x0A]

/-- The size of a number in the tail of a blob, in bytes. -/
def sizeFieldLength : Nat := 8

/-- The size of the checksum in the tail of a blob, in bytes. -/
def checksumLength : Nat := 4

/-- The size of the tail of a blob: the size of the directory, the checksum and the total size. -/
def tailLength : Nat := sizeFieldLength + checksumLength + sizeFieldLength

/-- The alignments that a region may ask for, in bits. -/
def alignments : List Nat := [8, 16, 32, 64]

/-- The regions taken so far: the bytes from the magic on, and the directory. -/
structure Draft where
  image : List UInt8
  entries : List Entry
  deriving DecidableEq, Repr

namespace Draft

/-- The draft without regions. -/
def empty (magic : List UInt8) : Draft := ⟨magic, []⟩

/-- The number of zero bytes that bring a length up to a multiple of the alignment. -/
def padding (bits length : Nat) : Nat := (bits / 8 - length % (bits / 8)) % (bits / 8)

/-- The draft with one more region. A name is taken once, and before the alignment is looked at. -/
def add (draft : Draft) (name : String) (bits : Nat) (data : List UInt8) : Except Error Draft :=
  if draft.entries.any (·.name == name) then .error (.duplicateName name)
  else if bits ∉ alignments then .error (.invalidAlignment bits)
  else
    let zeros := padding bits draft.image.length
    .ok {
      image := draft.image ++ List.replicate zeros 0 ++ data
      entries := draft.entries ++ [⟨name, draft.image.length + zeros, data.length⟩] }

/-- The draft with one more region, which may start at any byte. -/
def addUnaligned (draft : Draft) (name : String) (data : List UInt8) : Except Error Draft :=
  draft.add name 8 data

/-- A region to be added. -/
structure Region where
  name : String
  alignment : Nat
  data : List UInt8
  deriving DecidableEq, Repr

/-- The draft with further regions, in order and up to the first that is refused, and why that one
is. -/
def addAll (draft : Draft) : List Region → Draft × Except Error Unit
  | [] => (draft, .ok ())
  | region :: rest =>
    match draft.add region.name region.alignment region.data with
    | .ok draft => draft.addAll rest
    | .error e => (draft, .error e)

/-- The finished blob. -/
def toBytes (draft : Draft) : List UInt8 :=
  let directory := encodeDirectory draft.entries
  let body := draft.image ++ directory ++ encodeNumber directory.length
  let checked := body ++ LittleEndian.encode checksumLength (Crc32.checksum body).toNat
  checked ++ encodeNumber (checked.length + sizeFieldLength)

end Draft

end KanaKanji.DataSet
