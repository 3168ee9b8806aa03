/-!
# UTF-8 bytes of a text

`encode` lists the bytes of a text and `decode?` reads a text back from bytes, refusing every list
that is not well formed. `decodeLossy` reads any bytes: each maximal piece that begins like a
character and breaks off, and each byte that begins no character, reads as U+FFFD.

Main statements: `decode?_eq_some_iff` (reading accepts exactly what `encode` writes),
`decodeLossy_encode` (on well-formed bytes nothing is replaced) and `encode_append`.
-/

set_option autoImplicit false

namespace KanaKanji.Utf8

/-! ### Writing -/

/-- The bytes of a list of characters. -/
def encodeChars (cs : List Char) : List UInt8 := cs.flatMap String.utf8EncodeChar

/-- The bytes of a text. -/
def encode (s : String) : List UInt8 := encodeChars s.toList

@[simp] theorem encodeChars_nil : encodeChars [] = [] := rfl

@[simp] theorem encodeChars_cons (c : Char) (cs : List Char) :
    encodeChars (c :: cs) = String.utf8EncodeChar c ++ encodeChars cs := by
  simp [encodeChars]

@[simp] theorem encodeChars_append (cs ds : List Char) :
    encodeChars (cs ++ ds) = encodeChars cs ++ encodeChars ds := by
  simp [encodeChars]

theorem encode_append (s t : String) : encode (s ++ t) = encode s ++ encode t := by
  simp [encode]

/-- The bytes as a byte array are the ones the text is stored as. -/
theorem toByteArray_encode (s : String) : (encode s).toByteArray = s.toByteArray := by
  rw [← String.utf8Encode_toList]
  rfl

/-- The number of bytes of a text. -/
def byteLength (s : String) : Nat := s.utf8ByteSize

/-! ### Reading -/

/-- The text with exactly these bytes. -/
def decode? (bytes : List UInt8) : Option String := String.fromUTF8? bytes.toByteArray

/-- The character that the bytes begin with. -/
def firstChar? (bytes : List UInt8) : Option Char := (bytes.take 4).toByteArray.utf8DecodeChar? 0

/-- The bytes of a continued character are those from `80` to `BF`. -/
def isContinuation (b : UInt8) : Bool := 0x80 ≤ b && b ≤ 0xBF

/-- The number of bytes that a character beginning with the byte takes, and the bounds of its
second byte. -/
def leadShape (b : UInt8) : Nat × UInt8 × UInt8 :=
  if 0xC2 ≤ b && b ≤ 0xDF then (2, 0x80, 0xBF)
  else if b = 0xE0 then (3, 0xA0, 0xBF)
  else if b = 0xED then (3, 0x80, 0x9F)
  else if 0xE1 ≤ b && b ≤ 0xEF then (3, 0x80, 0xBF)
  else if b = 0xF0 then (4, 0x90, 0xBF)
  else if 0xF1 ≤ b && b ≤ 0xF3 then (4, 0x80, 0xBF)
  else if b = 0xF4 then (4, 0x80, 0x8F)
  else (1, 0, 0)

/-- The length of the longest piece at the front that begins a character, at least one byte: what
one replacement character stands for when the bytes begin with no whole character. -/
def brokenLength : List UInt8 → Nat
  | [] => 1
  | [_] => 1
  | lead :: second :: rest =>
    let (size, low, high) := leadShape lead
    if 2 ≤ size && low ≤ second && second ≤ high then
      2 + ((rest.take (size - 2)).takeWhile isContinuation).length
    else 1

theorem brokenLength_pos (bytes : List UInt8) : 0 < brokenLength bytes := by
  unfold brokenLength
  split
  · exact Nat.one_pos
  · exact Nat.one_pos
  · dsimp only
    split <;> omega

/-- The characters of any bytes, a replacement character for each broken piece. -/
def lossyChars (bytes : List UInt8) : List Char :=
  match bytes with
  | [] => []
  | b :: rest =>
    match firstChar? (b :: rest) with
    | some c => c :: lossyChars ((b :: rest).drop c.utf8Size)
    | none => '\uFFFD' :: lossyChars ((b :: rest).drop (brokenLength (b :: rest)))
termination_by bytes.length
decreasing_by
  · have := Char.utf8Size_pos c
    simp only [List.length_drop, List.length_cons]
    omega
  · have := brokenLength_pos (b :: rest)
    simp only [List.length_drop, List.length_cons]
    omega

/-- The text that any bytes read as, a replacement character for each broken piece. -/
def decodeLossy (bytes : List UInt8) : String := String.ofList (lossyChars bytes)

/-! ### Reading what was written -/

theorem firstChar?_encode (c : Char) (rest : List UInt8) :
    firstChar? (String.utf8EncodeChar c ++ rest) = some c := by
  have hlen : (String.utf8EncodeChar c).length ≤ 4 := by
    rw [String.length_utf8EncodeChar]
    exact Char.utf8Size_le_four c
  rw [firstChar?, List.take_append, List.take_of_length_le hlen]
  have := @ByteArray.utf8DecodeChar?_utf8EncodeChar_append
    (rest.take (4 - (String.utf8EncodeChar c).length)).toByteArray c
  simpa using this

theorem lossyChars_encodeChars (cs : List Char) : lossyChars (encodeChars cs) = cs := by
  induction cs with
  | nil => rw [encodeChars_nil, lossyChars]
  | cons c cs ih =>
    rw [encodeChars_cons]
    have hfirst := firstChar?_encode c (encodeChars cs)
    have hdrop : (String.utf8EncodeChar c ++ encodeChars cs).drop c.utf8Size = encodeChars cs := by
      rw [← String.length_utf8EncodeChar, List.drop_left]
    cases hbytes : String.utf8EncodeChar c ++ encodeChars cs with
    | nil => simp at hbytes
    | cons b rest =>
      rw [hbytes] at hfirst hdrop
      rw [lossyChars, hfirst]
      simp only
      rw [hdrop, ih]

/-- The bytes of a text read back as that text, with nothing replaced. -/
theorem decodeLossy_encode (s : String) : decodeLossy (encode s) = s := by
  rw [decodeLossy, encode, lossyChars_encodeChars, String.ofList_toList]

theorem decode?_encode (s : String) : decode? (encode s) = some s := by
  have h : s.toByteArray.IsValidUTF8 := s.isValidUTF8
  rw [decode?, toByteArray_encode, String.fromUTF8?, dif_pos h]
  rfl

/-- Reading accepts exactly the bytes of some text, and gives that text. -/
theorem decode?_eq_some_iff {bytes : List UInt8} {s : String} :
    decode? bytes = some s ↔ bytes = encode s := by
  constructor
  · intro h
    rw [decode?, String.fromUTF8?] at h
    split at h
    · have hs := Option.some.inj h
      have harr : bytes.toByteArray = s.toByteArray := by rw [← hs]; rfl
      rw [← toByteArray_encode] at harr
      have := congrArg (fun a : ByteArray ↦ a.data.toList) harr
      simpa using this
    · exact absurd h (by simp)
  · rintro rfl
    exact decode?_encode s

end KanaKanji.Utf8
