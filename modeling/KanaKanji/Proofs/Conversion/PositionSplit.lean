import Mathlib
import KanaKanji.Proofs.Conversion.Splitting
import KanaKanji.Proofs.Guarded
import KanaKanji.Proofs.Outcomes

/-!
# Splitting by positions

A key can be split by positions of its bytes, in rounds: each round takes the rest of the key from a
position on and searches it. If a reading is found, the characters from a kept position up to this
one are a piece, and as many bytes of the rest as the longest reading has are the next; otherwise
the position goes one character further, and the first one at which nothing was found is kept. A
text that is cut within a character gives a fault.

In such a split the position stands behind the characters that the recursive one has gathered, and
the kept one before them. So it comes to an end without a fault and with the same pieces
(`splitAtPositions_eq_ok`).
-/

set_option autoImplicit false

namespace KanaKanji

theorem Text.byteCount_append (front back : List Char) :
    byteCount (front ++ back) = byteCount front + byteCount back := by
  simp only [← Utf8.length_encodeChars, Utf8.encodeChars_append, List.length_append]

namespace Converter.Guarded

open Outcomes

/-! ### Rounds -/

/-- The characters of a text before a byte and those from it on. The byte has to begin a character
or be the end. -/
def cutText (text : List Char) (position : ℕ) : Except Fault (List Char × List Char) :=
  match Text.splitAtByte? position text with
  | some parts => .ok parts
  | none => .error .pastEnd

/-- The characters of a text from one byte up to another. -/
def sliceText (text : List Char) (start stop : ℕ) : Except Fault (List Char) := do
  let (front, _) ← cutText text stop
  let (_, slice) ← cutText front start
  return slice

/-- The size of the longest of the readings that ends between two characters of a text. -/
def longestSize? (found : List Finding) (text : List Char) : Option ℕ :=
  ((found.map fun f ↦ Utf8.byteLength f.reading).filter fun n ↦
    0 < n && (Text.splitAtByte? n text).isSome).max?

/-- The size of the first character. -/
def firstSize : List Char → ℕ
  | [] => 1
  | c :: _ => c.utf8Size

/-- The characters from a kept position up to another one as a piece, if a position is kept. -/
def keptPiece (text : List Char) (kept : Option ℕ) (stop : ℕ) : Except Fault (List (List Char)) :=
  match kept with
  | none => .ok []
  | some start => (sliceText text start stop).map ([·])

/-- The pieces of a text, in so many rounds at most, from a position and a kept one on and with the
pieces before them. -/
def splitFrom (search : String → List Finding) (text : List Char) :
    (rounds position : ℕ) → (kept : Option ℕ) → (pieces : List (List Char)) →
      Except Fault (List (List Char))
  | 0, _, _, _ => .error .unfinished
  | rounds + 1, position, kept, pieces =>
    if position < Text.byteCount text then do
      let rest ← sliceText text position (Text.byteCount text)
      match longestSize? (search (String.ofList rest)) rest with
      | some size =>
        let unknown ← keptPiece text kept position
        let piece ← sliceText rest 0 size
        splitFrom search text rounds (position + size) none (pieces ++ unknown ++ [piece])
      | none =>
        splitFrom search text rounds (position + firstSize rest) (some (kept.getD position)) pieces
    else do
      let unknown ← keptPiece text kept (Text.byteCount text)
      return pieces ++ unknown

/-- The pieces of a text, in so many rounds at most. -/
def splitAtPositions (search : String → List Finding) (text : List Char) (rounds : ℕ) :
    Except Fault (List (List Char)) :=
  splitFrom search text rounds 0 none []

/-! ### What a round does -/

theorem sliceText_eq_ok (front slice back : List Char) :
    sliceText (front ++ slice ++ back) (Text.byteCount front) (Text.byteCount (front ++ slice)) =
      .ok slice := by
  rw [sliceText, cutText, Text.splitAtByte?_eq_some_iff.mpr ⟨rfl, rfl⟩]
  dsimp only
  rw [ok_bind]
  dsimp only
  rw [cutText, Text.splitAtByte?_eq_some_iff.mpr ⟨rfl, rfl⟩]
  rfl

/-- The position before gathered characters is kept. -/
def keptBefore (front unknown : List Char) : Option ℕ :=
  if unknown.isEmpty then none else some (Text.byteCount front)

theorem keptPiece_eq_ok (front unknown back : List Char) :
    keptPiece (front ++ unknown ++ back) (keptBefore front unknown)
      (Text.byteCount (front ++ unknown)) = .ok (gathered unknown) := by
  cases unknown with
  | nil => rfl
  | cons c unknown =>
    rw [keptBefore, if_neg (by simp), keptPiece, sliceText_eq_ok]
    rfl

/-- With a character more behind the gathered ones the same position is kept. -/
theorem getD_keptBefore (front unknown : List Char) (c : Char) :
    some ((keptBefore front unknown).getD (Text.byteCount (front ++ unknown))) =
      keptBefore front (unknown ++ [c]) := by
  cases unknown with
  | nil => simp [keptBefore]
  | cons d unknown => simp [keptBefore]

variable {search : String → List Finding} {found : List Finding} {cs front back : List Char}

theorem longestSize?_of_eq_some (hfront : longestFront? found cs = some (front, back)) :
    longestSize? found cs = some (Text.byteCount front) := by
  obtain ⟨size, hsize, hsplit⟩ := Option.bind_eq_some_iff.mp hfront
  rw [(Text.splitAtByte?_eq_some_iff.mp hsplit).2]
  exact hsize

theorem longestSize?_of_eq_none (hnone : longestFront? found cs = none) :
    longestSize? found cs = none := by
  rcases hsize : longestSize? found cs with _ | size
  · rfl
  · have hmem := List.max?_mem hsize
    simp only [List.mem_filter, Bool.and_eq_true] at hmem
    obtain ⟨parts, hparts⟩ := Option.isSome_iff_exists.mp hmem.2.2
    have hfront : longestFront? found cs = some parts :=
      Option.bind_eq_some_iff.mpr ⟨size, hsize, hparts⟩
    exact absurd (hnone.symm.trans hfront) (Option.some_ne_none _).symm

theorem lt_byteCount_append_cons (front : List Char) (c : Char) (rest : List Char) :
    Text.byteCount front < Text.byteCount (front ++ c :: rest) := by
  have hpos := byteCount_pos_iff.mpr (List.cons_ne_nil c rest)
  rw [Text.byteCount_append]
  omega

theorem sliceText_to_end (front back : List Char) :
    sliceText (front ++ back) (Text.byteCount front) (Text.byteCount (front ++ back)) =
      .ok back := by
  have hslice := sliceText_eq_ok front back []
  rwa [List.append_nil] at hslice

/-! ### The split -/

/-- If the position stands behind the gathered characters, the rounds give what the recursion
gives. -/
theorem splitFrom_eq_ok (front unknown : List Char) {cs : List Char} {rounds : ℕ}
    (hrounds : cs.length < rounds) (pieces : List (List Char)) :
    splitFrom search (front ++ unknown ++ cs) rounds (Text.byteCount (front ++ unknown))
      (keptBefore front unknown) pieces = .ok (pieces ++ splitBy search unknown cs) := by
  fun_induction splitBy search unknown cs generalizing front rounds pieces with
  | case1 unknown =>
    -- The position is the end of the text, and what was gathered is the last piece.
    obtain ⟨rounds, rfl⟩ := Nat.exists_eq_add_one_of_ne_zero (Nat.ne_zero_of_lt hrounds)
    have hkept := keptPiece_eq_ok front unknown []
    rw [List.append_nil] at hkept ⊢
    rw [splitFrom, if_neg (lt_irrefl _), hkept, ok_bind]
    rfl
  | case2 unknown c rest piece back hfound _ ih =>
    -- The next round starts behind the piece, with nothing gathered and no position kept.
    obtain ⟨rounds, rfl⟩ := Nat.exists_eq_add_one_of_ne_zero (Nat.ne_zero_of_lt hrounds)
    obtain ⟨happend, -⟩ := longestFront?_eq_some_iff.mp hfound
    have hpiece : sliceText (c :: rest) 0 (Text.byteCount piece) = .ok piece := by
      rw [happend]
      exact sliceText_eq_ok [] piece back
    rw [splitFrom, if_pos (lt_byteCount_append_cons _ c rest), sliceText_to_end, ok_bind,
      longestSize?_of_eq_some hfound]
    dsimp only
    rw [keptPiece_eq_ok, ok_bind, hpiece, ok_bind, ← Text.byteCount_append]
    have hlength := length_lt_of_longestFront? hfound
    have hrest := ih (front ++ unknown ++ piece)
      (hlength.trans_le (Nat.lt_succ_iff.mp hrounds)) (pieces ++ gathered unknown ++ [piece])
    rw [happend, ← List.append_assoc]
    rw [List.append_nil] at hrest
    refine hrest.trans ?_
    simp
  | case3 unknown c rest hfound ih =>
    -- The character is gathered: the kept position stays before it, the other one goes behind it.
    obtain ⟨rounds, rfl⟩ := Nat.exists_eq_add_one_of_ne_zero (Nat.ne_zero_of_lt hrounds)
    rw [splitFrom, if_pos (lt_byteCount_append_cons _ c rest), sliceText_to_end, ok_bind,
      longestSize?_of_eq_none hfound]
    dsimp only
    rw [getD_keptBefore _ _ c]
    have hrest := ih front (Nat.lt_of_succ_lt_succ hrounds) pieces
    have happend : front ++ (unknown ++ [c]) ++ rest = front ++ unknown ++ c :: rest := by simp
    have hposition : Text.byteCount (front ++ (unknown ++ [c])) =
        Text.byteCount (front ++ unknown) + firstSize (c :: rest) := by
      rw [← List.append_assoc, Text.byteCount_append (front ++ unknown)]
      rfl
    rwa [happend, hposition] at hrest

/-- A split by positions comes to an end with the pieces of the recursive one. -/
theorem splitAtPositions_eq_ok {text : List Char} {rounds : ℕ} (hrounds : text.length < rounds) :
    splitAtPositions search text rounds = .ok (splitBy search [] text) :=
  splitFrom_eq_ok [] [] hrounds []

end Converter.Guarded

end KanaKanji
