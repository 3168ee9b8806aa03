/-!
# Decimal numbers

Numbers written with the digits `0` to `9` and, where it is allowed, a sign in front. Zeros may
stand in front of a number and are not counted.

Main statements: `natural?_toDigits` and `integer?_toChars` (what is written reads back).
-/

set_option autoImplicit false

namespace KanaKanji.Decimal

/-! ### Reading -/

/-- The number that digits write; there has to be at least one digit and nothing else. -/
def digits? (cs : List Char) : Option Nat :=
  if !cs.isEmpty && cs.all Char.isDigit then some (Nat.ofDigitChars 10 cs 0) else none

/-- The number that digits write, with or without a plus sign in front. -/
def natural? : List Char → Option Nat
  | '+' :: cs => digits? cs
  | cs => digits? cs

/-- The number that digits write, with or without a sign in front. -/
def integer? : List Char → Option Int
  | '-' :: cs => (digits? cs).map fun n ↦ -(n : Int)
  | cs => (natural? cs).map Int.ofNat

/-- The natural number below a bound that is written. -/
def naturalBelow? (bound : Nat) (cs : List Char) : Option Nat := do
  let n ← natural? cs
  if n < bound then some n else none

/-- The unsigned number of two bytes that is written. -/
def uint16? (cs : List Char) : Option UInt16 := (naturalBelow? UInt16.size cs).map UInt16.ofNat

/-- The signed number of two bytes that is written. -/
def int16? (cs : List Char) : Option Int16 := do
  let n ← integer? cs
  if Int16.minValue.toInt ≤ n ∧ n ≤ Int16.maxValue.toInt then some (Int16.ofInt n) else none

/-! ### Writing -/

/-- An integer with a minus sign in front if it is negative. -/
def toChars : Int → List Char
  | .ofNat n => Nat.toDigits 10 n
  | .negSucc n => '-' :: Nat.toDigits 10 (n + 1)

/-! ### Reading what was written -/

theorem digits?_toDigits (n : Nat) : digits? (Nat.toDigits 10 n) = some n := by
  have hne : (Nat.toDigits 10 n).isEmpty = false := by simp
  have hall : (Nat.toDigits 10 n).all Char.isDigit = true :=
    List.all_eq_true.2 fun c hc ↦ Nat.isDigit_of_mem_toDigits (by decide) (by decide) hc
  simp [digits?, hne, hall]

theorem natural?_of_digits? {cs : List Char} {n : Nat} (h : digits? cs = some n) :
    natural? cs = some n := by
  unfold natural?
  split
  · rename_i rest
    simp [digits?] at h
  · exact h

theorem natural?_toDigits (n : Nat) : natural? (Nat.toDigits 10 n) = some n :=
  natural?_of_digits? (digits?_toDigits n)

theorem integer?_toChars (z : Int) : integer? (toChars z) = some z := by
  cases z with
  | ofNat n =>
    have h := digits?_toDigits n
    simp only [toChars]
    unfold integer?
    split
    · rename_i heq
      rw [heq] at h
      simp [digits?] at h
    · simp [natural?_toDigits]
  | negSucc n =>
    simp only [toChars, integer?, digits?_toDigits]
    rfl

theorem naturalBelow?_toDigits {bound n : Nat} (h : n < bound) :
    naturalBelow? bound (Nat.toDigits 10 n) = some n := by
  simp [naturalBelow?, natural?_toDigits, h]

theorem uint16?_toDigits (n : UInt16) : uint16? (Nat.toDigits 10 n.toNat) = some n := by
  rw [uint16?, naturalBelow?_toDigits n.toNat_lt_size]
  simp

theorem int16?_toChars (z : Int16) : int16? (toChars z.toInt) = some z := by
  have h : Int16.minValue.toInt ≤ z.toInt ∧ z.toInt ≤ Int16.maxValue.toInt :=
    ⟨z.minValue_le_toInt, z.toInt_le⟩
  rw [int16?, integer?_toChars]
  simp only [Option.bind_eq_bind, Option.bind_some, if_pos h, Int16.ofInt_toInt]

end KanaKanji.Decimal
