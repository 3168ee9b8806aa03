import Mathlib

/-!
# Guarded steps

A total function goes on where a machine stops: past the end of a table it finds some element, it
takes a greater number from a smaller one, and its numbers have no bound. The guarded steps of this
module do what a machine does, and give a `Fault` where it stops. A computation made of them that
gives the result of a total one shows that the machine gets there.

Numbers of 64 bits are added and subtracted with a fault for what is no such number; `addBelow` and
`minus` do the same for plain numbers, with a bound for sums. `narrow` is what is left of a number
in 32 bits, without a fault.
-/

set_option autoImplicit false

namespace KanaKanji

/-- Why a machine stops: a place past the end of a table, a sum or a difference that is no 64-bit
number, or a loop that is cut off. -/
inductive Fault
  | pastEnd
  | overflow
  | unfinished
  deriving DecidableEq, Repr

namespace Guarded

/-! ### Tables -/

/-- An element of a table. -/
def fetch {α : Type} (table : Array α) (i : ℕ) : Except Fault α :=
  if h : i < table.size then .ok table[i] else .error .pastEnd

theorem fetch_eq_ok_iff {α : Type} {table : Array α} {i : ℕ} {a : α} :
    fetch table i = .ok a ↔ table[i]? = some a := by
  rw [fetch, Array.getElem?_eq_some_iff]
  by_cases hi : i < table.size
  · rw [dif_pos hi, Except.ok.injEq, exists_prop_of_true hi]
  · rw [dif_neg hi]
    exact iff_of_false (by simp) fun ⟨hlt, _⟩ ↦ hi hlt

/-- The bytes from one place up to another. -/
def slice (bytes : List UInt8) (start stop : ℕ) : Except Fault (List UInt8) :=
  if start ≤ stop ∧ stop ≤ bytes.length then .ok ((bytes.drop start).take (stop - start))
  else .error .pastEnd

theorem slice_eq_ok {bytes : List UInt8} {start stop : ℕ} (hstart : start ≤ stop)
    (hstop : stop ≤ bytes.length) :
    slice bytes start stop = .ok ((bytes.drop start).take (stop - start)) :=
  if_pos ⟨hstart, hstop⟩

/-- The list with the elements from one place up to another, both included, in another order. -/
def rearrange {α : Type} (xs : List α) (first last : ℕ) (order : List α → List α) :
    Except Fault (List α) :=
  if first ≤ last + 1 ∧ last < xs.length then
    .ok (xs.take first ++ (order ((xs.drop first).take (last + 1 - first)) ++ xs.drop (last + 1)))
  else .error .pastEnd

theorem rearrange_append {α : Type} (front row back : List α) {last : ℕ} (hpos : row ≠ [])
    (hlast : front.length + row.length = last + 1) (order : List α → List α) :
    rearrange (front ++ (row ++ back)) front.length last order =
      .ok (front ++ (order row ++ back)) := by
  have hrow : 0 < row.length := List.length_pos_iff.mpr hpos
  have hsize : last + 1 - front.length = row.length := by omega
  rw [rearrange, if_pos ⟨by omega, by simp only [List.length_append]; omega⟩, hsize,
    List.take_left, List.drop_left, List.take_left, ← hlast, List.drop_length_add_append,
    List.drop_left]

/-! ### Numbers -/

/-- What is left of a number in 32 bits. -/
def narrow (n : ℕ) : ℕ := n % UInt32.size

theorem narrow_eq {n : ℕ} (hn : n < UInt32.size) : narrow n = n := Nat.mod_eq_of_lt hn

/-- A sum of 64-bit numbers. -/
def add (a b : UInt64) : Except Fault UInt64 :=
  if a.toNat + b.toNat < UInt64.size then .ok (a + b) else .error .overflow

/-- A difference of 64-bit numbers. -/
def sub (a b : UInt64) : Except Fault UInt64 :=
  if b ≤ a then .ok (a - b) else .error .overflow

/-- A sum of numbers that has to stay below a bound. -/
def addBelow (bound a b : ℕ) : Except Fault ℕ :=
  if a + b < bound then .ok (a + b) else .error .overflow

/-- A difference of numbers, the greater one first. -/
def minus (a b : ℕ) : Except Fault ℕ := if b ≤ a then .ok (a - b) else .error .overflow

variable {a b : ℕ}

theorem addBelow_eq_ok {bound : ℕ} (hsum : a + b < bound) : addBelow bound a b = .ok (a + b) :=
  if_pos hsum

theorem minus_eq_ok (hle : b ≤ a) : minus a b = .ok (a - b) := if_pos hle

theorem add_ofNat (hsum : a + b < UInt64.size) :
    add (UInt64.ofNat a) (UInt64.ofNat b) = .ok (UInt64.ofNat (a + b)) := by
  rw [add, UInt64.toNat_ofNat_of_lt' (by omega), UInt64.toNat_ofNat_of_lt' (by omega),
    if_pos hsum, UInt64.ofNat_add]

theorem sub_ofNat (ha : a < UInt64.size) (hb : b ≤ a) :
    sub (UInt64.ofNat a) (UInt64.ofNat b) = .ok (UInt64.ofNat (a - b)) := by
  rw [sub, if_pos ((UInt64.ofNat_le_iff_le (by omega) ha).mpr hb), UInt64.ofNat_sub hb]

theorem add_eq_error (ha : a < UInt64.size) (hb : b < UInt64.size) (hsum : UInt64.size ≤ a + b) :
    add (UInt64.ofNat a) (UInt64.ofNat b) = .error .overflow := by
  rw [add, UInt64.toNat_ofNat_of_lt' ha, UInt64.toNat_ofNat_of_lt' hb, if_neg (by omega)]

theorem sub_eq_error (ha : a < UInt64.size) (hb : b < UInt64.size) (hlt : a < b) :
    sub (UInt64.ofNat a) (UInt64.ofNat b) = .error .overflow := by
  rw [sub, if_neg (mt (UInt64.ofNat_le_iff_le hb ha).mp (by omega))]

theorem ofNat_ne_ofNat_iff (ha : a < UInt64.size) (hb : b < UInt64.size) :
    UInt64.ofNat a ≠ UInt64.ofNat b ↔ a ≠ b := by
  rw [ne_eq, ← UInt64.toNat_inj, UInt64.toNat_ofNat_of_lt' ha, UInt64.toNat_ofNat_of_lt' hb]

end Guarded

end KanaKanji
