/-!
# Cutting text

Cutting a text after a number of its bytes, where that falls between two characters, and after a
number of its characters.

Main statements: `splitAtByte?_eq_some_iff` (the two parts make up the text, and the first has the
bytes asked for) and `toList_takeChars`, `toList_dropChars`.
-/

set_option autoImplicit false

namespace KanaKanji.Text

/-- The number of bytes of a list of characters. -/
def byteCount : List Char → Nat
  | [] => 0
  | c :: rest => c.utf8Size + byteCount rest

/-- The characters up to a byte and those from it on, if the byte begins a character or is the
end. -/
def splitAtByte? : Nat → List Char → Option (List Char × List Char)
  | 0, cs => some ([], cs)
  | _ + 1, [] => none
  | n + 1, c :: rest =>
    if c.utf8Size ≤ n + 1 then
      (splitAtByte? (n + 1 - c.utf8Size) rest).map fun (front, back) ↦ (c :: front, back)
    else none
termination_by _ cs => cs.length

/-- The parts make up the text, and the first has the bytes asked for. -/
theorem splitAtByte?_eq_some_iff {n : Nat} {cs front back : List Char} :
    splitAtByte? n cs = some (front, back) ↔ cs = front ++ back ∧ byteCount front = n := by
  fun_induction splitAtByte? n cs generalizing front back with
  | case1 cs =>
    constructor
    · rintro h
      obtain ⟨rfl, rfl⟩ := Prod.mk.inj (Option.some.inj h)
      exact ⟨rfl, rfl⟩
    · rintro ⟨rfl, h⟩
      cases front with
      | nil => rfl
      | cons c front =>
        have := Char.utf8Size_pos c
        simp only [byteCount] at h
        omega
  | case2 n =>
    constructor
    · intro h
      exact absurd h (by simp)
    · rintro ⟨h, hn⟩
      obtain ⟨rfl, rfl⟩ := List.append_eq_nil_iff.1 h.symm
      simp [byteCount] at hn
  | case3 n c rest hsize ih =>
    simp only [Option.map_eq_some_iff, Prod.exists, Prod.mk.injEq]
    constructor
    · rintro ⟨f, b, h, rfl, rfl⟩
      obtain ⟨rfl, hcount⟩ := ih.1 h
      refine ⟨rfl, ?_⟩
      simp only [byteCount] at hcount ⊢
      omega
    · rintro ⟨h, hcount⟩
      cases front with
      | nil => simp [byteCount] at hcount
      | cons d front =>
        obtain ⟨rfl, rfl⟩ := List.cons.inj h
        refine ⟨front, back, ih.2 ⟨rfl, ?_⟩, rfl, rfl⟩
        simp only [byteCount] at hcount ⊢
        omega
  | case4 n c rest hsize =>
    constructor
    · intro h
      exact absurd h (by simp)
    · rintro ⟨h, hcount⟩
      cases front with
      | nil => simp [byteCount] at hcount
      | cons d front =>
        obtain ⟨rfl, rfl⟩ := List.cons.inj h
        simp only [byteCount] at hcount
        omega

/-- A text without its first so many bytes; empty if it has no more than those or if they end within
a character. -/
def afterByte (n : Nat) (s : String) : String :=
  match splitAtByte? n s.toList with
  | some (_, back) => String.ofList back
  | none => ""

/-- The first characters of a text. -/
def takeChars (n : Nat) (s : String) : String := String.ofList (s.toList.take n)

/-- A text without its first characters. -/
def dropChars (n : Nat) (s : String) : String := String.ofList (s.toList.drop n)

@[simp] theorem toList_takeChars (n : Nat) (s : String) :
    (takeChars n s).toList = s.toList.take n := by
  simp [takeChars]

@[simp] theorem toList_dropChars (n : Nat) (s : String) :
    (dropChars n s).toList = s.toList.drop n := by
  simp [dropChars]

/-- The texts in a row. -/
def joined (texts : List String) : String := String.ofList (texts.flatMap String.toList)

@[simp] theorem toList_joined (texts : List String) :
    (joined texts).toList = texts.flatMap String.toList := by
  simp [joined]

end KanaKanji.Text
