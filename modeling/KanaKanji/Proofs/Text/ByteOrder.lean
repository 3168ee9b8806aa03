import Mathlib
import KanaKanji.Text.Utf8

/-!
# The order of texts is the order of their bytes

Texts are ordered by their first different characters and lists of bytes by their first different
bytes. The two agree (`encode_lt_encode_iff`): the bytes of a character that comes before another
differ from the bytes of the other within both (`encodeChar_append_lt`), so what follows the two
characters is of no account. A text also begins with another just if its bytes do
(`encode_prefix_iff`).
-/

set_option autoImplicit false

namespace KanaKanji.Utf8

/-- Where characters differ their bytes do, and in the same direction. -/
theorem encodeChar_append_lt {c d : Char} (hlt : c < d) (s t : List UInt8) :
    String.utf8EncodeChar c ++ s < String.utf8EncodeChar d ++ t := by
  have hval : c.val.toNat < d.val.toNat := hlt
  have hbound : d.val.toNat < 0x110000 := by
    have hvalid := d.valid
    simp only [UInt32.isValidChar, Nat.isValidChar] at hvalid
    omega
  have hdigits : ∀ n : ℕ, n / 4096 = n / 64 / 64 ∧ n / 262144 = n / 64 / 64 / 64 := by
    intro n
    omega
  -- The leading byte tells how many bytes follow, and more bytes mean a greater character.
  simp only [String.utf8EncodeChar, (hdigits _).1, (hdigits _).2]
  split_ifs <;>
    simp only [List.cons_append, List.nil_append, List.cons_lt_cons_iff, UInt8.lt_iff_toNat_lt,
      ← UInt8.toNat_inj, UInt8.toNat_ofNat'] <;>
    omega

theorem encodeChars_lt {cs ds : List Char} (hlt : cs < ds) : encodeChars cs < encodeChars ds := by
  induction cs generalizing ds with
  | nil =>
    cases ds with
    | nil => exact absurd hlt (List.lt_irrefl [])
    | cons d ds =>
      rw [encodeChars_nil, encodeChars_cons]
      have hpos : 0 < (String.utf8EncodeChar d ++ encodeChars ds).length := by
        rw [List.length_append, String.length_utf8EncodeChar]
        have := Char.utf8Size_pos d
        omega
      obtain ⟨b, rest, hbytes⟩ := List.exists_cons_of_length_pos hpos
      rw [hbytes]
      exact List.nil_lt_cons b rest
  | cons c cs ih =>
    cases ds with
    | nil => exact absurd hlt (List.not_lt_nil _)
    | cons d ds =>
      rw [encodeChars_cons, encodeChars_cons]
      rcases List.cons_lt_cons_iff.mp hlt with hchar | ⟨rfl, hrest⟩
      · exact encodeChar_append_lt hchar _ _
      · exact List.append_left_lt (ih hrest)

/-- Bytes keep the order of texts. -/
theorem encode_lt_encode_iff {a b : String} : encode a < encode b ↔ a < b := by
  constructor
  · intro hbytes
    by_contra hge
    rcases eq_or_ne a b with rfl | hne
    · exact Std.lt_irrefl hbytes
    · have hgt : b < a := Std.lt_of_le_of_ne (Std.not_lt.mp hge) hne.symm
      exact Std.lt_irrefl (Std.lt_trans hbytes (encodeChars_lt hgt))
  · exact encodeChars_lt

theorem encode_inj {a b : String} : encode a = encode b ↔ a = b := by
  constructor
  · intro hbytes
    have hread := decode?_encode a
    rw [hbytes, decode?_encode] at hread
    exact (Option.some.inj hread).symm
  · exact congrArg encode

/-- Characters begin with others if their bytes do: the first of the bytes are those of one
character. -/
theorem prefix_of_encodeChars_prefix {cs ds : List Char}
    (hbytes : encodeChars cs <+: encodeChars ds) : cs <+: ds := by
  induction cs generalizing ds with
  | nil => exact List.nil_prefix
  | cons c cs ih =>
    obtain ⟨tail, htail⟩ := hbytes
    rw [encodeChars_cons, List.append_assoc] at htail
    have hfirst := firstChar?_encode c (encodeChars cs ++ tail)
    cases ds with
    | nil =>
      have hnone : firstChar? [] = none := by decide
      rw [htail, encodeChars_nil, hnone] at hfirst
      exact absurd hfirst (by simp)
    | cons d ds =>
      rw [htail, encodeChars_cons, firstChar?_encode] at hfirst
      obtain rfl := Option.some.inj hfirst
      rw [encodeChars_cons, List.append_cancel_left_eq] at htail
      exact List.cons_prefix_cons.mpr ⟨rfl, ih ⟨tail, htail⟩⟩

theorem encode_prefix_iff {a b : String} : encode a <+: encode b ↔ a.toList <+: b.toList := by
  constructor
  · exact prefix_of_encodeChars_prefix
  · rintro ⟨tail, htail⟩
    exact ⟨encodeChars tail, by rw [encode, encode, ← htail, encodeChars_append]⟩

theorem length_encode (s : String) : (encode s).length = byteLength s := by
  rw [byteLength, ← String.size_toByteArray, ← toByteArray_encode]
  simp

end KanaKanji.Utf8
