import Mathlib
import KanaKanji.Proofs.Bits.Counting
import KanaKanji.Proofs.Bits.Packing
import KanaKanji.Proofs.Guarded

/-!
# Bit streams under any calls

A stream takes pushes, of a bit that is given as any byte, and padding, in whatever order
(`BitStream.Call`). Which bits there are after a run of calls can be told from the calls alone
(`Call.bitsAfter`), and the stream holds just these (`holds_callAll`): a push of zero or one adds
this bit, a push of anything else is refused, and padding adds zeros up to a whole number of 32-bit
words.

So a stream never has a byte too many, or a bit set behind its end (`Tight`), and what it held
before a call stays in place (`ExtendsBy`). The steps of a push rest on this (`Guarded.push`): a
byte is begun only if all others are full, and a one goes into the last byte. A stream with too few
bytes would lose that bit, and one with bits set behind its end would show bits that were never
pushed. Padding adds one zero byte after another (`Guarded.fill`).

Main statement: `tight_under_calls` (what a stream is after any calls, and what one more call makes
of it).
-/

set_option autoImplicit false

namespace KanaKanji.BitStream

/-! ### Calls -/

/-- What a stream can be asked for: a further bit, given as a number, or padding. -/
inductive Call
  | push (value : UInt8)
  | pad

/-- The stream after a call, which is the same if a number was refused, and the outcome. -/
def call (s : BitStream) : Call → BitStream × Except BitStreamError Unit
  | .push value =>
    match s.pushNumber value with
    | .ok next => (next, .ok ())
    | .error e => (s, .error e)
  | .pad => (s.padTo32, .ok ())

/-- The stream after calls, carried out or refused. -/
def callAll (s : BitStream) (calls : List Call) : BitStream :=
  calls.foldl (fun s c ↦ (s.call c).1) s

/-- The bits that pushing numbers adds: one for each zero and each one. -/
def pushedBits (values : List UInt8) : List Bool := (values.filter (· ≤ 1)).map (· == 1)

/-- The bits that there are after a call, where there were bits before. -/
def Call.bitsAfter (bits : List Bool) : Call → List Bool
  | .push value => bits ++ pushedBits [value]
  | .pad => bits.rightpad (bits.length ⌈/⌉ 32 * 32) false

variable {s later : BitStream} {bits more : List Bool} {value : UInt8}

theorem call_push_of_le (hvalue : value ≤ 1) :
    s.call (.push value) = (s.push (value == 1), .ok ()) := by
  rw [call, pushNumber, if_pos hvalue]

theorem call_push_of_gt (hvalue : 1 < value) :
    s.call (.push value) = (s, .error (.invalidBit value)) := by
  rw [call, pushNumber, if_neg (UInt8.not_le.mpr hvalue)]

theorem pushedBits_cons (value : UInt8) (values : List UInt8) :
    pushedBits (value :: values) = pushedBits [value] ++ pushedBits values := by
  rw [pushedBits, pushedBits, pushedBits, ← List.map_append, ← List.filter_append]
  rfl

theorem pushedBits_singleton_of_le (hvalue : value ≤ 1) : pushedBits [value] = [value == 1] := by
  simp [pushedBits, hvalue]

theorem pushedBits_singleton_of_gt (hvalue : 1 < value) : pushedBits [value] = [] := by
  simp [pushedBits, UInt8.not_le.mpr hvalue]

/-! ### The bits after a run -/

/-- Padding fills up with zeros to the next whole number of 32-bit words. -/
theorem holds_padTo32_rightpad (hs : s.Holds bits) :
    s.padTo32.Holds (Call.bitsAfter bits .pad) := by
  obtain ⟨zeros, hpadded, hsize⟩ := holds_padTo32 hs
  have hlength : s.padTo32.length = s.padTo32.image.size * 8 := rfl
  rw [hpadded.1, List.length_append, List.length_replicate, hsize] at hlength
  have hzeros : zeros = bits.length ⌈/⌉ 32 * 32 - bits.length := by
    rw [Nat.ceilDiv_eq_add_pred_div]
    omega
  rwa [Call.bitsAfter, List.rightpad, ← hzeros]

theorem holds_call (hs : s.Holds bits) (c : Call) : (s.call c).1.Holds (c.bitsAfter bits) := by
  cases c with
  | push value =>
    rw [Call.bitsAfter]
    by_cases hvalue : value ≤ 1
    · rw [call_push_of_le hvalue, pushedBits_singleton_of_le hvalue]
      exact holds_push hs (value == 1)
    · have hgt := UInt8.not_le.mp hvalue
      rwa [call_push_of_gt hgt, pushedBits_singleton_of_gt hgt, List.append_nil]
  | pad => exact holds_padTo32_rightpad hs

/-- After any calls a stream holds the bits that the calls tell. -/
theorem holds_callAll (hs : s.Holds bits) (calls : List Call) :
    (s.callAll calls).Holds (calls.foldl Call.bitsAfter bits) := by
  induction calls generalizing s bits with
  | nil => exact hs
  | cons c calls ih => exact ih (holds_call hs c)

/-- Pushes add their bits in order, whatever is refused between them. -/
theorem foldl_bitsAfter_map_push (values : List UInt8) :
    (values.map Call.push).foldl Call.bitsAfter bits = bits ++ pushedBits values := by
  induction values generalizing bits with
  | nil => exact (List.append_nil bits).symm
  | cons value values ih =>
    rw [List.map_cons, List.foldl_cons, ih, Call.bitsAfter, List.append_assoc, ← pushedBits_cons]

/-! ### Bits by their places -/

/-- The image has just the bytes that the bits take, and no bit is set behind the end. -/
structure Tight (s : BitStream) : Prop where
  size_eq : s.image.size = s.length ⌈/⌉ 8
  zero_of_le : ∀ i, s.length ≤ i → bitAt s.toBytes i = false

/-- The stream has all bits of an earlier one, each at its place, and then these. -/
structure ExtendsBy (later s : BitStream) (more : List Bool) : Prop where
  length_eq : later.length = s.length + more.length
  keeps : ∀ i < s.length, bitAt later.toBytes i = bitAt s.toBytes i
  added : ∀ i bit, more[i]? = some bit → bitAt later.toBytes (s.length + i) = bit

theorem Holds.bitAt_eq (hs : s.Holds bits) (i : ℕ) : bitAt s.toBytes i = bits.getD i false := by
  obtain ⟨-, spare, -, hbits⟩ := hs
  rw [bitAt_eq_getD, hbits]
  rcases Nat.lt_or_ge i bits.length with hi | hi
  · rw [List.getD_append _ _ _ _ hi]
  · rw [List.getD_append_right _ _ _ _ hi, List.getD_eq_default _ _ hi,
      List.getD_eq_getElem?_getD, List.getElem?_getD_replicate_default_eq]

theorem Holds.tight (hs : s.Holds bits) : s.Tight where
  size_eq := by
    obtain ⟨hlength, spare, hspare, hbits⟩ := hs
    have hsize := size_eq_of_holds hbits
    rw [Nat.ceilDiv_eq_add_pred_div]
    omega
  zero_of_le i hi := by
    rw [hs.bitAt_eq, List.getD_eq_default _ _ (hs.1 ▸ hi)]

theorem Holds.extendsBy (hs : s.Holds bits) (hlater : later.Holds (bits ++ more)) :
    later.ExtendsBy s more where
  length_eq := by rw [hlater.1, hs.1, List.length_append]
  keeps i hi := by
    rw [hlater.bitAt_eq, hs.bitAt_eq, List.getD_append _ _ _ _ (hs.1 ▸ hi)]
  added i bit hbit := by
    rw [hlater.bitAt_eq, hs.1, List.getD_append_right _ _ _ _ (Nat.le_add_right _ _),
      Nat.add_sub_cancel_left, List.getD_eq_getElem?_getD, hbit, Option.getD_some]

/-! ### Padding -/

theorem Holds.extendsBy_padTo32 (hs : s.Holds bits) :
    s.padTo32.ExtendsBy s (List.replicate (s.padTo32.length - s.length) false) := by
  have hextends : s.padTo32.ExtendsBy s
      (List.replicate (bits.length ⌈/⌉ 32 * 32 - bits.length) false) :=
    hs.extendsBy (holds_padTo32_rightpad hs)
  have hzeros : s.padTo32.length - s.length = bits.length ⌈/⌉ 32 * 32 - bits.length := by
    rw [hextends.length_eq, List.length_replicate, Nat.add_sub_cancel_left]
  rwa [hzeros]

theorem toBytes_padTo32 :
    s.padTo32.toBytes = s.toBytes ++ List.replicate (s.padTo32.image.size - s.image.size) 0 := by
  rw [padTo32, toBytes, toBytes, Array.toList_append, Array.toList_replicate, Array.size_append,
    Array.size_replicate, Nat.add_sub_cancel_left]

/-- The image is padded to the next multiple of four bytes. -/
theorem isLeast_size_padTo32 :
    IsLeast {size | 4 ∣ size ∧ s.image.size ≤ size} s.padTo32.image.size := by
  have hsize : s.padTo32.image.size = s.image.size + (4 - s.image.size % 4) % 4 := by
    rw [padTo32, Array.size_append, Array.size_replicate]
  rw [hsize]
  refine ⟨⟨by omega, Nat.le_add_right _ _⟩, ?_⟩
  rintro size ⟨hfour, hle⟩
  omega

/-! ### Calls in steps -/

namespace Guarded

open KanaKanji.Guarded

/-- The image with a bit of its last byte set. Without a last byte there is no place for it. -/
def setInLast (image : Array UInt8) (place : ℕ) : Except Fault (Array UInt8) :=
  (fetch image (image.size - 1)).map fun last ↦
    image.set! (image.size - 1) (last ||| 1 <<< UInt8.ofNat place)

/-- A push in steps: a number above one is refused; a byte is begun if all others are full; a one
goes to its place in the last byte; the bit is counted. -/
def push (s : BitStream) (value : UInt8) :
    Except Fault (BitStream × Except BitStreamError Unit) :=
  if 1 < value then .ok (s, .error (.invalidBit value))
  else
    let place := s.length % 8
    let begun := if place = 0 then s.image.push 0 else s.image
    let filled := if value = 1 then setInLast begun place else .ok begun
    filled.map fun image ↦ ({ image, length := s.length + 1 }, .ok ())

/-- Zero bytes are added one by one, as long as the bytes do not come in fours. -/
def fill (image : Array UInt8) : Array UInt8 :=
  if image.size % 4 = 0 then image else fill (image.push 0)
termination_by (4 - image.size % 4) % 4
decreasing_by
  rw [Array.size_push]
  omega

/-- A call in steps. -/
def call (s : BitStream) : Call → Except Fault (BitStream × Except BitStreamError Unit)
  | .push value => push s value
  | .pad => .ok ({ image := fill s.image, length := (fill s.image).size * 8 }, .ok ())

theorem fill_eq (image : Array UInt8) :
    fill image = image ++ Array.replicate ((4 - image.size % 4) % 4) 0 := by
  fun_induction fill image with
  | case1 image hwhole => simp [hwhole]
  | case2 image hpartial ih =>
    obtain ⟨zeros, hzeros⟩ : ∃ zeros, (4 - image.size % 4) % 4 = zeros + 1 :=
      ⟨(4 - image.size % 4) % 4 - 1, by omega⟩
    have hrest : (4 - (image.push 0).size % 4) % 4 = zeros := by
      rw [Array.size_push]
      omega
    rw [ih, hrest, hzeros]
    apply Array.ext'
    simp [List.replicate_succ]

theorem setInLast_eq_ok {image : Array UInt8} (hpos : 0 < image.size) (place : ℕ) :
    setInLast image place =
      .ok (image.modify (image.size - 1) (· ||| 1 <<< UInt8.ofNat place)) := by
  have hlast : image.size - 1 < image.size := by omega
  rw [setInLast, fetch_eq_ok_iff.mpr (Array.getElem?_eq_getElem hlast), Except.map, Except.ok.injEq]
  apply Array.ext <;> grind

theorem setInLast_push_zero (image : Array UInt8) :
    setInLast (image.push 0) 0 = .ok (image.push 1) := by
  rw [setInLast_eq_ok (by simp), Except.ok.injEq, ← Array.toList_inj,
    toList_modify_last _ image.toList 0 _ Array.toList_push, Array.toList_push]
  rfl

/-- A zero leaves the byte as it is. -/
theorem modify_or_shiftLeft_false (image : Array UInt8) (i : ℕ) (place : UInt8) :
    image.modify i (· ||| false.toUInt8 <<< place) = image := by
  have hzero : false.toUInt8 = 0 := rfl
  have hsame (byte : UInt8) : byte ||| false.toUInt8 <<< place = byte := by
    rw [hzero, UInt8.zero_shiftLeft, UInt8.or_zero]
  apply Array.ext <;> simp [Array.getElem_modify, hsame]

/-- In a tight stream there is a last byte wherever a one goes, so that no bit is lost. -/
theorem push_eq_ok (hs : s.Tight) (value : UInt8) :
    Guarded.push s value = .ok (s.call (.push value)) := by
  rw [Guarded.push]
  by_cases hvalue : value ≤ 1
  · rw [if_neg (UInt8.not_lt.mpr hvalue), call_push_of_le hvalue, BitStream.push]
    have hbit : value = 0 ∨ value = 1 := by grind
    dsimp only
    by_cases haligned : s.length % 8 = 0
    · -- The last byte is the one that was begun.
      rw [if_pos haligned, if_pos haligned, haligned, setInLast_push_zero]
      rcases hbit with rfl | rfl <;> rfl
    · -- No byte is begun, but the bits that do not fill a byte have one.
      have hpos : 0 < s.image.size := by
        rw [hs.size_eq, Nat.ceilDiv_eq_add_pred_div]
        omega
      rw [if_neg haligned, if_neg haligned]
      rcases hbit with rfl | rfl
      · have hfalse : ((0 : UInt8) == 1) = false := rfl
        rw [if_neg (by decide), hfalse, modify_or_shiftLeft_false]
        rfl
      · rw [if_pos rfl, setInLast_eq_ok hpos]
        rfl
  · have hgt := UInt8.not_le.mp hvalue
    rw [if_pos hgt, call_push_of_gt hgt]

theorem call_eq_ok (hs : s.Tight) (c : Call) : Guarded.call s c = .ok (s.call c) := by
  cases c with
  | push value => exact push_eq_ok hs value
  | pad => rw [Guarded.call, fill_eq]; rfl

end Guarded

/-! ### Any calls -/

/-- After any calls a stream has just the bytes that its bits take, and no bit is set behind its
end. The next call comes to the same in steps, and no bit is lost for want of a byte. A number above
one is refused and changes nothing; zero or one comes behind the other bits, which stay as they are.
Padding adds zero bytes up to the next multiple of four and counts all bits of the image, so that
the bits pushed after it stand behind the padding. -/
theorem tight_under_calls {calls : List Call} (hs : empty.callAll calls = s) :
    s.Tight ∧
    (∀ c, Guarded.call s c = .ok (s.call c)) ∧
    (∀ value, 1 < value → s.call (.push value) = (s, .error (.invalidBit value))) ∧
    (∀ value ≤ 1, ∃ next, s.call (.push value) = (next, .ok ()) ∧
      next.ExtendsBy s [value == 1]) ∧
    ∃ next, s.call .pad = (next, .ok ()) ∧
      next.toBytes = s.toBytes ++ List.replicate (next.image.size - s.image.size) 0 ∧
      IsLeast {size | 4 ∣ size ∧ s.image.size ≤ size} next.image.size ∧
      next.length = 8 * next.image.size ∧
      next.ExtendsBy s (List.replicate (next.length - s.length) false) ∧
      ∀ values, (next.callAll (values.map .push)).ExtendsBy next (pushedBits values) := by
  obtain ⟨bits, hholds⟩ : ∃ bits, s.Holds bits := ⟨_, hs ▸ holds_callAll holds_empty calls⟩
  refine ⟨hholds.tight, Guarded.call_eq_ok hholds.tight, fun value ↦ call_push_of_gt,
    fun value hvalue ↦ ?_, ?_⟩
  · exact ⟨_, call_push_of_le hvalue, hholds.extendsBy (holds_push hholds _)⟩
  · have hpadded := holds_padTo32_rightpad hholds
    refine ⟨s.padTo32, rfl, toBytes_padTo32, isLeast_size_padTo32, Nat.mul_comm _ _,
      hholds.extendsBy_padTo32, fun values ↦ ?_⟩
    have hlater := holds_callAll hpadded (values.map .push)
    rw [foldl_bitsAfter_map_push] at hlater
    exact hpadded.extendsBy hlater

/-- Three bits, with a number between them that is refused, then padding, another refusal, and one
more bit. -/
def unalignedCalls : List Call :=
  [.push 1, .push 2, .push 0, .push 1, .pad, .push 255, .push 1]

theorem tight_under_calls_unaligned :
    empty.callAll unalignedCalls = ⟨#[5, 0, 0, 0, 1], 33⟩ ∧
    (empty.callAll unalignedCalls).Tight ∧
    ∃ next, (empty.callAll unalignedCalls).call .pad = (next, .ok ()) ∧
      next.toBytes = [5, 0, 0, 0, 1, 0, 0, 0] ∧ next.length = 64 ∧
      (next.callAll [.push 0, .push 2, .push 1]).ExtendsBy next [false, true] := by
  have hs : empty.callAll unalignedCalls = ⟨#[5, 0, 0, 0, 1], 33⟩ := by decide
  obtain ⟨htight, -, -, -, next, hpad, -, -, -, -, hlater⟩ := tight_under_calls hs
  rw [hs]
  refine ⟨rfl, htight, next, hpad, ?_, ?_, hlater [0, 2, 1]⟩
  all_goals
    obtain rfl := congrArg Prod.fst hpad
    decide

end KanaKanji.BitStream
