/-!
# CRC-32

The reflected cyclic redundancy check of the polynomial `EDB88320`. The register starts with all
bits set, takes the bytes one after another and is inverted at the end. One byte is eight steps of
the register, each of which shifts out the lowest bit and adds the polynomial where that bit was
set.
-/

set_option autoImplicit false

namespace KanaKanji.Crc32

/-- The polynomial without its highest term, the lowest power in the highest bit. -/
def polynomial : UInt32 := 0xEDB88320

/-- One step of the register. -/
def shift (register : UInt32) : UInt32 :=
  if register &&& 1 = 1 then (register >>> 1) ^^^ polynomial else register >>> 1

/-- The register after one more byte. -/
def feed (register : UInt32) (byte : UInt8) : UInt32 :=
  shift <| shift <| shift <| shift <| shift <| shift <| shift <| shift <| register ^^^ byte.toUInt32

/-- The check value of a list of bytes. -/
def checksum (bytes : List UInt8) : UInt32 := ~~~ bytes.foldl feed 0xFFFFFFFF

end KanaKanji.Crc32
