import Mathlib
import KanaKanji.Proofs.Bits.Counting
import KanaKanji.Proofs.Bits.Words

/-!
# A directory of blocks

A machine searches a bit vector with a directory of blocks. A block has sixteen words of 32 bits,
that is 512 bits, and the directory has the number of ones before each block and, in its last entry,
of all ones. A rank adds the words of a block up to a position to the entry of the block. A select
finds the block by halving the directory, the word by scanning the block, and then the bit in the
word. The last block may have fewer words, and the last word fewer bits; zeros fill it up.

All steps are guarded here: reading the directory, taking a count from a greater one, and adding
counts of 32 bits. They run through for every image with fewer than 2^32 ones, and give what its
list of bits gives (`rank1_eq_ok`, `select1_eq_ok`, `select0_eq_ok`). So the directory answers as
the bit vector does, which keeps a count for each byte (`ofBytes_eq_ok_counted`), and both agree
with counting (`rank_select_by_counting`).
-/

set_option autoImplicit false

namespace KanaKanji

/-- An image with the numbers of ones before each of its blocks and behind the last. -/
structure BlockDirectory where
  image : List UInt8
  onesBefore : Array ℕ

namespace BlockDirectory

open Guarded Outcomes

/-! ### Guarded answers -/

section Definitions

variable (image : List UInt8)

/-- The number of blocks, the last one begun included. -/
def blockCount : ℕ := (wordCount image + 15) / 16

/-- The words of a block. -/
def blockWords (block : ℕ) : List ℕ :=
  List.range' (block * 16) (min (block * 16 + 16) (wordCount image) - block * 16)

/-- The ones of some words on top of a count that has to stay below a bound. -/
def countWords (bound : ℕ) : List ℕ → ℕ → Except Fault ℕ
  | [], count => .ok count
  | i :: rest, count => do
    let word ← wordAt image i
    let count ← addBelow bound count (countOnes word)
    countWords bound rest count

/-- The ones before each of some blocks and behind the last, in 32 bits. -/
def countBlocks : List ℕ → ℕ → Except Fault (List ℕ)
  | [], count => .ok [count]
  | block :: rest, count => do
    let next ← countWords image UInt32.size (blockWords image block) count
    let behind ← countBlocks rest next
    return count :: behind

/-- The directory of an image. -/
def ofBytes : Except Fault BlockDirectory := do
  let onesBefore ← countBlocks image (List.range (blockCount image)) 0
  return ⟨image, onesBefore.toArray⟩

/-- The position of the `k`-th bit of a kind in some words. -/
def findInWords (kind : Bool) : List ℕ → (k : ℕ) → Except Fault (Option ℕ)
  | [], _ => .ok none
  | i :: rest, k => do
    let word ← wordAt image i
    let count := countOnes (turn kind word)
    if k < count then
      let place ← selectInWord k (turn kind word)
      return some (i * 32 + place)
    else
      let remaining ← minus k count
      findInWords kind rest remaining

end Definitions

variable (d : BlockDirectory)

/-- The number of bits. -/
def numBits : ℕ := d.image.length * 8

/-- The number of ones: the last entry. -/
def ones : ℕ := d.onesBefore.back?.getD 0

/-- The number of zeros. -/
def zeros : Except Fault ℕ := minus d.numBits d.ones

/-- The bit at a position; every position past the end reads as zero. -/
def get (i : ℕ) : Except Fault Bool :=
  if i < d.numBits then do
    let byte ← fetch d.image.toArray (i / 8)
    return byte.toNat.testBit (i % 8)
  else .ok false

/-- The number of ones before a position, all of them if the position is past the end. -/
def rank1 (i : ℕ) : Except Fault ℕ := do
  let i := min i d.numBits
  let before ← fetch d.onesBefore (i / 512)
  let start := i / 512 * 16
  let count ← countWords d.image UInt64.size (List.range' start (i / 32 - start)) before
  if i % 32 = 0 then return count
  else
    let word ← wordAt d.image (i / 32)
    let mask ← maskBelow (i % 32)
    addBelow UInt64.size count (countOnes (word &&& mask))

/-- The number of zeros before a position, all of them if the position is past the end. -/
def rank0 (i : ℕ) : Except Fault ℕ := do
  let ones ← d.rank1 i
  minus (min i d.numBits) ones

/-- The number of zeros before a block. -/
def zerosBefore (block : ℕ) : Except Fault ℕ := do
  let ones ← fetch d.onesBefore block
  minus (block * 512) ones

/-- The last block of those from one up to another that has at most `n` zeros before it, found by
halving. -/
def lastBlock (n low high : ℕ) : Except Fault ℕ :=
  if high < low then .error .overflow
  else if high - low ≤ 1 then .ok low
  else do
    let middle := (low + high) / 2
    let before ← d.zerosBefore middle
    if before ≤ n then lastBlock n middle high else lastBlock n low middle
termination_by high - low

/-- The position of the `n`-th one. Its block is the one in front of the first entry above `n`,
which halving finds as the entries ascend. -/
def select1 (n : ℕ) : Except Fault (Option ℕ) :=
  if d.ones ≤ n then .ok none
  else do
    let blocks ← minus d.onesBefore.size 1
    let behind := (d.onesBefore.toList.take blocks).findIdx (n < ·)
    let block ← minus behind 1
    let before ← fetch d.onesBefore block
    let remaining ← minus n before
    findInWords d.image true (blockWords d.image block) remaining

/-- The position of the `n`-th zero, if it is one of the image and none that fills it up. -/
def select0 (n : ℕ) : Except Fault (Option ℕ) := do
  let zeros ← d.zeros
  if zeros ≤ n then return none
  else
    let blocks ← minus d.onesBefore.size 1
    let block ← d.lastBlock n 0 blocks
    let before ← d.zerosBefore block
    let remaining ← minus n before
    let found ← findInWords d.image false (blockWords d.image block) remaining
    return found.filter (· < d.numBits)

/-! ### Words in a row -/

section Words

variable {image : List UInt8}

/-- The bits of words in a row are those of the first and of the words behind it. -/
theorem take_drop_succ (bits : List Bool) (start count : ℕ) :
    (bits.drop (start * 32)).take ((count + 1) * 32) =
      (bits.drop (start * 32)).take 32 ++ (bits.drop ((start + 1) * 32)).take (count * 32) := by
  rw [Nat.add_mul, Nat.one_mul, Nat.add_comm, List.take_add, List.drop_drop, Nat.add_mul,
    Nat.one_mul]

theorem countWords_eq_ok {bound start length count : ℕ}
    (hwords : start + length ≤ wordCount image)
    (hfits : count +
      (((filledBits image).drop (start * 32)).take (length * 32)).count true < bound) :
    countWords image bound (List.range' start length) count =
      .ok (count +
        (((filledBits image).drop (start * 32)).take (length * 32)).count true) := by
  induction length generalizing start count with
  | zero => simp [countWords]
  | succ length ih =>
    rw [take_drop_succ, List.count_append, ← Nat.add_assoc] at hfits ⊢
    have hstart : start < wordCount image := by omega
    obtain ⟨w, hword, hbits⟩ := exists_wordAt_eq_ok hstart
    rw [← hbits] at hfits ⊢
    rw [List.range'_succ, countWords, hword, ok_bind, countOnes,
      addBelow_eq_ok ((Nat.le_add_right _ _).trans_lt hfits), ok_bind]
    exact ih (by omega) hfits

/-- Words are searched for a bit as the row of their bits is. -/
theorem findInWords_eq_ok {kind : Bool} {start length k : ℕ}
    (hwords : start + length ≤ wordCount image) :
    findInWords image kind (List.range' start length) k =
      .ok ((positionOf kind k (((filledBits image).drop (start * 32)).take (length * 32))).map
        (start * 32 + ·)) := by
  induction length generalizing start k with
  | zero => simp [findInWords, positionOf]
  | succ length ih =>
    have hstart : start < wordCount image := by omega
    obtain ⟨w, hword, hbits⟩ := exists_wordAt_eq_ok hstart
    rw [take_drop_succ, ← hbits, List.range'_succ, findInWords, hword, ok_bind]
    dsimp only
    rw [countOnes_turn]
    by_cases hk : k < (wordBits w).count kind
    · obtain ⟨place, hplace⟩ := exists_positionOf_of_lt_count hk
      have hturned : positionOf true k (wordBits (turn kind w)) = some place := by
        rw [wordBits_turn, positionOf_map_beq, hplace]
      rw [if_pos hk, selectInWord_eq_ok hturned, ok_bind, positionOf_append_of_lt hk, hplace]
      rfl
    · have hle := Nat.le_of_not_lt hk
      rw [if_neg hk, minus_eq_ok hle, ok_bind, ih (by omega), positionOf_append_of_le hle,
        Option.map_map, length_wordBits]
      congr 2
      funext i
      rw [Function.comp_apply]
      omega

end Words

/-! ### Blocks -/

section Blocks

variable (image : List UInt8)

/-- The number of bits of a kind before a block. -/
def countBefore (kind : Bool) (block : ℕ) : ℕ := ((filledBits image).take (block * 512)).count kind

theorem countBefore_zero (kind : Bool) : countBefore image kind 0 = 0 := by
  simp [countBefore]

theorem countBefore_succ (kind : Bool) (block : ℕ) :
    countBefore image kind (block + 1) = countBefore image kind block +
      (((filledBits image).drop (block * 512)).take 512).count kind := by
  rw [countBefore, countBefore, Nat.add_mul, Nat.one_mul, List.take_add, List.count_append]

/-- Behind the last block all bits are counted. -/
theorem countBefore_blockCount (kind : Bool) :
    countBefore image kind (blockCount image) = (filledBits image).count kind := by
  rw [countBefore, List.take_of_length_le]
  rw [length_filledBits, blockCount]
  omega

theorem countBefore_le (kind : Bool) (block : ℕ) :
    countBefore image kind block ≤ (filledBits image).count kind :=
  (List.take_sublist _ _).count_le kind

theorem countBefore_mono (kind : Bool) {block other : ℕ} (hle : block ≤ other) :
    countBefore image kind block ≤ countBefore image kind other :=
  (List.take_sublist_take_left (by omega)).count_le kind

/-- Zeros that fill up the image are no ones. -/
theorem count_true_filledBits :
    (filledBits image).count true = (image.flatMap byteBits).count true := by
  obtain ⟨zeros, hfilled⟩ := filledBits_eq_append image
  rw [hfilled, List.count_append, List.count_replicate]
  simp

variable {image}

/-- The words of a block have its bits. -/
theorem take_drop_block (block : ℕ) :
    ((filledBits image).drop (block * 16 * 32)).take
        ((min (block * 16 + 16) (wordCount image) - block * 16) * 32) =
      ((filledBits image).drop (block * 512)).take 512 := by
  rw [Nat.mul_assoc, List.take_eq_take_iff, List.length_drop, length_filledBits]
  omega

theorem findInBlock_eq_ok {kind : Bool} {block n : ℕ} (hbefore : countBefore image kind block ≤ n)
    (hbehind : n < countBefore image kind (block + 1)) :
    findInWords image kind (blockWords image block) (n - countBefore image kind block) =
      .ok (positionOf kind n (filledBits image)) := by
  have hstart : block * 512 ≤ (filledBits image).length := by
    by_contra hpast
    rw [countBefore_succ, List.drop_of_length_le (by omega)] at hbehind
    exact absurd hbehind (by simpa using hbefore)
  have hlength := length_filledBits image
  rw [blockWords, findInWords_eq_ok (by omega), take_drop_block]
  conv_rhs => rw [← List.take_append_drop (block * 512) (filledBits image)]
  rw [countBefore] at hbefore
  rw [countBefore_succ, countBefore] at hbehind
  rw [positionOf_append_of_le hbefore, List.length_take_of_le hstart,
    ← List.take_append_drop 512 ((filledBits image).drop (block * 512)),
    positionOf_append_of_lt (by omega), List.take_append_drop, countBefore]
  congr 2
  funext i
  omega

end Blocks

/-! ### The directory of an image -/

/-- The directory with the counts that the entries stand for. -/
def counted (image : List UInt8) : BlockDirectory :=
  ⟨image, ((List.range (blockCount image + 1)).map (countBefore image true)).toArray⟩

variable {image : List UInt8}

theorem image_counted : (counted image).image = image := rfl

theorem numBits_counted : (counted image).numBits = image.length * 8 := rfl

theorem countBlocks_eq_ok (hones : (image.flatMap byteBits).count true < UInt32.size)
    {block length : ℕ} (hblocks : block + length ≤ blockCount image) :
    countBlocks image (List.range' block length) (countBefore image true block) =
      .ok ((List.range' block (length + 1)).map (countBefore image true)) := by
  induction length generalizing block with
  | zero => rfl
  | succ length ih =>
    have hnext := countBefore_succ image true block
    have hfits := (countBefore_le image true (block + 1)).trans_eq (count_true_filledBits image)
    have hwords : block * 16 ≤ wordCount image := by
      rw [blockCount] at hblocks
      omega
    rw [List.range'_succ, countBlocks, blockWords,
      countWords_eq_ok (by omega) (by rw [take_drop_block]; omega), take_drop_block, ← hnext,
      ok_bind, ih (by omega)]
    rfl

/-- The directory of an image is made without a fault. -/
theorem ofBytes_eq_ok (hones : (image.flatMap byteBits).count true < UInt32.size) :
    ofBytes image = .ok (counted image) := by
  have hcount := countBlocks_eq_ok hones (Nat.zero_add (blockCount image)).le
  rw [countBefore_zero, ← List.range_eq_range', ← List.range_eq_range'] at hcount
  rw [ofBytes, hcount, ok_bind]
  rfl

/-- The entries ascend, so that the directory can be halved. -/
theorem pairwise_onesBefore : (counted image).onesBefore.toList.Pairwise (· ≤ ·) := by
  rw [counted, List.pairwise_map]
  exact List.pairwise_lt_range.imp fun hlt ↦ countBefore_mono image true hlt.le

theorem fetch_onesBefore {block : ℕ} (hblock : block ≤ blockCount image) :
    fetch (counted image).onesBefore block = .ok (countBefore image true block) := by
  rw [fetch_eq_ok_iff, counted, List.getElem?_toArray, List.getElem?_map,
    List.getElem?_range (by omega)]
  rfl

theorem ones_counted : (counted image).ones = (image.flatMap byteBits).count true := by
  rw [ones, counted, List.back?_toArray, List.getLast?_map, List.getLast?_range]
  simp [countBefore_blockCount, count_true_filledBits]

theorem minus_size_onesBefore :
    minus (counted image).onesBefore.size 1 = .ok (blockCount image) := by
  rw [counted, List.size_toArray, List.length_map, List.length_range]
  exact minus_eq_ok (Nat.le_add_left 1 _)

theorem zeros_counted :
    (counted image).zeros = .ok ((image.flatMap byteBits).count false) := by
  have hsum := List.count_false_add_count_true (image.flatMap byteBits)
  rw [length_flatMap_byteBits] at hsum
  rw [zeros, ones_counted, numBits, minus_eq_ok]
  · congr 1
    show image.length * 8 - _ = _
    omega
  · show _ ≤ image.length * 8
    omega

/-! ### Answers -/

theorem get_eq_ok (i : ℕ) :
    (counted image).get i = .ok ((BitVector.ofBytes image).get i) := by
  rw [get, numBits_counted, BitVector.get]
  by_cases hi : i / 8 < image.length
  · have hbyte : image.toArray[i / 8]? = some image[i / 8] := by simp [hi]
    rw [if_pos (by omega), dif_pos (by simpa [BitVector.ofBytes] using hi), counted,
      fetch_eq_ok_iff.mpr hbyte, ok_bind]
    rfl
  · rw [if_neg (by omega), dif_neg (by simpa [BitVector.ofBytes] using hi)]

/-- Up to its end the image has the same bits with zeros behind it. -/
theorem take_filledBits {i : ℕ} (hi : i ≤ image.length * 8) :
    (filledBits image).take i = (image.flatMap byteBits).take i := by
  obtain ⟨zeros, hfilled⟩ := filledBits_eq_append image
  rw [hfilled, List.take_append_of_le_length (by rwa [length_flatMap_byteBits])]

theorem take_min_filledBits (i : ℕ) :
    (filledBits image).take (min i (image.length * 8)) = (image.flatMap byteBits).take i := by
  rw [take_filledBits (min_le_right _ _), ← length_flatMap_byteBits, ← List.take_eq_take_min]

/-- The words of a block up to a place add to its entry what stands in front of the last word. -/
theorem countWords_of_block (hones : (image.flatMap byteBits).count true < UInt32.size)
    {place : ℕ} (hplace : place ≤ image.length * 8) :
    countWords image UInt64.size
        (List.range' (place / 512 * 16) (place / 32 - place / 512 * 16))
        (countBefore image true (place / 512)) =
      .ok (((filledBits image).take (place / 32 * 32)).count true) := by
  set start := place / 512 * 16 with hstart
  have hsplit : place / 32 * 32 = start * 32 + (place / 32 - start) * 32 := by omega
  have hfront : place / 512 * 512 = start * 32 := by omega
  have hsum : ((filledBits image).take (place / 32 * 32)).count true =
      countBefore image true (place / 512) +
        (((filledBits image).drop (start * 32)).take ((place / 32 - start) * 32)).count true := by
    rw [hsplit, List.take_add, List.count_append, countBefore, hfront]
  have hle := (List.take_sublist (place / 32 * 32) (filledBits image)).count_le true
  have hall := count_true_filledBits image
  have hwide : UInt32.size < UInt64.size := by decide
  rw [countWords_eq_ok (by rw [wordCount]; omega) (by omega), ← hsum]

theorem rank1_eq_ok (hones : (image.flatMap byteBits).count true < UInt32.size) (i : ℕ) :
    (counted image).rank1 i = .ok (((image.flatMap byteBits).take i).count true) := by
  rw [← take_min_filledBits, rank1, numBits_counted]
  dsimp only
  have hplace : min i (image.length * 8) ≤ image.length * 8 := min_le_right _ _
  generalize min i (image.length * 8) = place at hplace ⊢
  have hblock : place / 512 ≤ blockCount image := by
    rw [blockCount, wordCount]
    omega
  rw [fetch_onesBefore hblock, ok_bind, image_counted, countWords_of_block hones hplace, ok_bind]
  by_cases hrest : place % 32 = 0
  · rw [if_pos hrest, Nat.div_mul_cancel (Nat.dvd_of_mod_eq_zero hrest)]
    rfl
  · have hlast : place / 32 < wordCount image := by
      rw [wordCount]
      omega
    obtain ⟨w, hword, hwordBits⟩ := exists_wordAt_eq_ok hlast
    obtain ⟨mask, hmask, hmasked⟩ := maskBelow_eq_ok (Nat.mod_lt place (by decide : 0 < 32))
    have hsum : ((filledBits image).take place).count true =
        ((filledBits image).take (place / 32 * 32)).count true + countOnes (w &&& mask) := by
      conv_lhs => rw [← Nat.div_add_mod' place 32, List.take_add, List.count_append]
      rw [hmasked, hwordBits, List.take_take, min_eq_left (Nat.mod_lt _ (by decide)).le]
    have hle := (List.take_sublist place (filledBits image)).count_le true
    have hall := count_true_filledBits image
    have hwide : UInt32.size < UInt64.size := by decide
    rw [if_neg hrest, hword, ok_bind, hmask, ok_bind, addBelow_eq_ok (by omega), hsum]

theorem rank0_eq_ok (hones : (image.flatMap byteBits).count true < UInt32.size) (i : ℕ) :
    (counted image).rank0 i = .ok (((image.flatMap byteBits).take i).count false) := by
  have hsum := List.count_false_add_count_true ((image.flatMap byteBits).take i)
  rw [List.length_take, length_flatMap_byteBits] at hsum
  rw [rank0, rank1_eq_ok hones, ok_bind, numBits_counted, minus_eq_ok (by omega)]
  congr 1
  omega

/-- A bit of a kind within the image stands where it stands in the whole words. -/
theorem positionOf_filledBits {kind : Bool} {n : ℕ}
    (hn : n < (image.flatMap byteBits).count kind) :
    positionOf kind n (filledBits image) = positionOf kind n (image.flatMap byteBits) := by
  obtain ⟨zeros, hfilled⟩ := filledBits_eq_append image
  rw [hfilled, positionOf_append_of_lt hn]

/-- Where the numbers of a list begin at most at `n` and end above it, the first one above `n` comes
behind one that is not. -/
theorem exists_findIdx_eq {f : ℕ → ℕ} {count n : ℕ} (hfirst : f 0 ≤ n) (hlast : n < f count) :
    ∃ i, ((List.range count).map f).findIdx (n < ·) = i + 1 ∧ f i ≤ n ∧ n < f (i + 1) := by
  set entries := (List.range count).map f with hentries
  have hlength : entries.length = count := by simp [hentries]
  set behind := entries.findIdx (n < ·) with hbehind
  have hle : behind ≤ entries.length := List.findIdx_le_length
  have habove : n < f behind := by
    rcases Nat.lt_or_eq_of_le hle with hlt | heq
    · have hfound : n < entries[behind] := of_decide_eq_true (List.findIdx_getElem (w := hlt))
      simpa [hentries] using hfound
    · rwa [heq, hlength]
  have hpos : behind ≠ 0 := by
    intro hzero
    rw [hzero] at habove
    omega
  obtain ⟨i, hi⟩ := Nat.exists_eq_succ_of_ne_zero hpos
  have hbefore : i < behind := by omega
  have hbound : i < entries.length := hbefore.trans_le hle
  have hbelow : ¬ n < entries[i] := of_decide_eq_false (List.not_of_lt_findIdx hbefore)
  refine ⟨i, hi, by simpa [hentries] using hbelow, ?_⟩
  rwa [hi] at habove

theorem select1_eq_ok (n : ℕ) :
    (counted image).select1 n = .ok (positionOf true n (image.flatMap byteBits)) := by
  rw [select1, ones_counted]
  by_cases hn : (image.flatMap byteBits).count true ≤ n
  · rw [if_pos hn, positionOf_eq_none_of_count_le hn]
  have hlast : n < countBefore image true (blockCount image) := by
    rw [countBefore_blockCount, count_true_filledBits]
    omega
  obtain ⟨block, hbehind, hbefore, habove⟩ :=
    exists_findIdx_eq ((countBefore_zero image true).trans_le (Nat.zero_le n)) hlast
  have hblock : block < blockCount image := by
    by_contra hpast
    exact absurd (countBefore_mono image true (Nat.le_of_not_lt hpast)) (by omega)
  have hentries : (counted image).onesBefore.toList.take (blockCount image) =
      (List.range (blockCount image)).map (countBefore image true) := by
    rw [counted, ← List.map_take, List.take_range, min_eq_left (Nat.le_succ _)]
  rw [if_neg hn, minus_size_onesBefore, ok_bind]
  dsimp only
  rw [hentries, hbehind, minus_eq_ok (Nat.le_add_left 1 _), ok_bind, Nat.add_sub_cancel,
    fetch_onesBefore hblock.le, ok_bind, minus_eq_ok hbefore, ok_bind]
  exact (findInBlock_eq_ok hbefore habove).trans
    (congrArg _ (positionOf_filledBits (Nat.lt_of_not_le hn)))

theorem zerosBefore_eq_ok {block : ℕ} (hblock : block < blockCount image) :
    (counted image).zerosBefore block = .ok (countBefore image false block) := by
  have hsum := List.count_false_add_count_true ((filledBits image).take (block * 512))
  rw [blockCount] at hblock
  rw [List.length_take, length_filledBits, min_eq_left (by omega)] at hsum
  rw [zerosBefore, fetch_onesBefore (by rw [blockCount]; omega), ok_bind, countBefore,
    minus_eq_ok (by omega), countBefore]
  congr 1
  omega

/-- Halving the directory is halving the counts of zeros; the entry behind the last block is never
looked at. -/
theorem lastBlock_eq_ok (n : ℕ) {low high : ℕ} (hle : low ≤ high)
    (hhigh : high ≤ blockCount image) :
    (counted image).lastBlock n low high =
      .ok (lastWhere (fun block ↦ countBefore image false block ≤ n) low high) := by
  fun_induction lastWhere (fun block ↦ countBefore image false block ≤ n) low high with
  | case1 low high hclose =>
    rw [lastBlock, if_neg (by omega), if_pos (by omega)]
  | case2 low high hfar middle htest ih =>
    rw [lastBlock, if_neg (by omega), if_neg (by omega)]
    dsimp only
    rw [zerosBefore_eq_ok (by omega), ok_bind, if_pos (of_decide_eq_true htest)]
    exact ih (by omega) hhigh
  | case3 low high hfar middle htest ih =>
    rw [lastBlock, if_neg (by omega), if_neg (by omega)]
    dsimp only
    rw [zerosBefore_eq_ok (by omega), ok_bind, if_neg (by simpa using htest)]
    exact ih (by omega) (by omega)

theorem select0_eq_ok (n : ℕ) :
    (counted image).select0 n = .ok (positionOf false n (image.flatMap byteBits)) := by
  rw [select0, zeros_counted, ok_bind]
  by_cases hn : (image.flatMap byteBits).count false ≤ n
  · rw [if_pos hn, positionOf_eq_none_of_count_le hn]
    rfl
  have hlast : n < countBefore image false (blockCount image) := by
    obtain ⟨zeros, hfilled⟩ := filledBits_eq_append image
    rw [countBefore_blockCount, hfilled, List.count_append]
    omega
  have hfirst := countBefore_zero image false
  have hpos : 0 < blockCount image := by
    by_contra hnone
    rw [Nat.eq_zero_of_not_pos hnone, hfirst] at hlast
    omega
  obtain ⟨hblock, hbefore, habove⟩ :=
    lastWhere_spec (fun block ↦ decide (countBefore image false block ≤ n)) hpos
      (by simp [hfirst]) (by simpa using hlast)
  rw [decide_eq_true_eq] at hbefore
  rw [decide_eq_false_iff_not, Nat.not_le] at habove
  obtain ⟨place, hplace⟩ := exists_positionOf_of_lt_count (Nat.lt_of_not_le hn)
  have hbound : place < image.length * 8 := by
    rw [← length_flatMap_byteBits]
    exact (List.getElem?_eq_some_iff.mp (positionOf_eq_some_iff.mp hplace).1).1
  rw [if_neg hn, minus_size_onesBefore, ok_bind, lastBlock_eq_ok n hpos.le le_rfl, ok_bind,
    zerosBefore_eq_ok hblock, ok_bind, minus_eq_ok hbefore, ok_bind, image_counted,
    findInBlock_eq_ok hbefore habove, ok_bind, positionOf_filledBits (Nat.lt_of_not_le hn), hplace,
    Option.filter_some, numBits_counted, if_pos (decide_eq_true hbound)]
  rfl

/-! ### The bit vector -/

/-- Whatever the bit vector answers, the directory answers too, and without a fault. -/
structure Answers (d : BlockDirectory) (v : BitVector) : Prop where
  numBits : d.numBits = v.length
  ones : d.ones = v.ones
  zeros : d.zeros = .ok v.zeros
  get : ∀ i, d.get i = .ok (v.get i)
  rank1 : ∀ i, d.rank1 i = .ok (v.rank1 i)
  rank0 : ∀ i, d.rank0 i = .ok (v.rank0 i)
  select1 : ∀ n, d.select1 n = .ok (v.select1 n)
  select0 : ∀ n, d.select0 n = .ok (v.select0 n)

/-- For an image with fewer than 2^32 ones, however many zeros it has, the directory is made and
answers as the bit vector does. -/
theorem ofBytes_eq_ok_counted (hones : (BitVector.ofBytes image).ones < UInt32.size) :
    ofBytes image = .ok (counted image) ∧ (counted image).Answers (BitVector.ofBytes image) := by
  have hcount := (BitVector.ofBytes image).ones_eq_count
  rw [BitVector.toList_ofBytes] at hcount
  have hzeros := List.count_false_add_count_true (image.flatMap byteBits)
  rw [length_flatMap_byteBits, ← hcount] at hzeros
  rw [hcount] at hones
  refine ⟨ofBytes_eq_ok hones, ⟨rfl, ?_, ?_, get_eq_ok, fun i ↦ ?_, fun i ↦ ?_, fun n ↦ ?_,
    fun n ↦ ?_⟩⟩
  · rw [ones_counted, hcount]
  · rw [zeros_counted, BitVector.zeros, BitVector.length]
    congr 1
    show _ = image.length * 8 - _
    omega
  · rw [rank1_eq_ok hones, BitVector.rank1_eq_count, BitVector.toList_ofBytes]
  · rw [rank0_eq_ok hones, BitVector.rank0_eq_count, BitVector.toList_ofBytes]
  · rw [select1_eq_ok, BitVector.select1_eq_positionOf, BitVector.toList_ofBytes]
  · rw [select0_eq_ok, BitVector.select0_eq_positionOf, BitVector.toList_ofBytes]

/-! ### Counting -/

/-- For an image with fewer than 2^32 bits the directory of blocks is made, ascends, and answers
without a fault as the bit vector does: bits are read where they stand, ranks count them, and
selections find the `n`-th of them. -/
theorem rank_select_by_counting {image : List UInt8} (hbits : image.length * 8 < UInt32.size) :
    ∃ d, ofBytes image = .ok d ∧ d.onesBefore.toList.Pairwise (· ≤ ·) ∧
      (∀ i, d.get i = .ok ((BitVector.ofBytes image).get i) ∧
        (BitVector.ofBytes image).get i = bitAt image i) ∧
      (∀ i, d.rank1 i = .ok ((BitVector.ofBytes image).rank1 i) ∧
        (BitVector.ofBytes image).rank1 i = countBelow image true i) ∧
      (∀ i, d.rank0 i = .ok ((BitVector.ofBytes image).rank0 i) ∧
        (BitVector.ofBytes image).rank0 i = countBelow image false i) ∧
      (∀ n, d.select1 n = .ok ((BitVector.ofBytes image).select1 n) ∧
        Selects image true n ((BitVector.ofBytes image).select1 n)) ∧
      ∀ n, d.select0 n = .ok ((BitVector.ofBytes image).select0 n) ∧
        Selects image false n ((BitVector.ofBytes image).select0 n) := by
  have hones : (BitVector.ofBytes image).ones < UInt32.size :=
    (BitVector.ones_le_length _).trans_lt hbits
  obtain ⟨hmade, hanswers⟩ := ofBytes_eq_ok_counted hones
  refine ⟨counted image, hmade, pairwise_onesBefore, ?_, ?_, ?_, ?_, ?_⟩
  · exact fun i ↦ ⟨hanswers.get i, get_ofBytes_eq_bitAt i⟩
  · refine fun i ↦ ⟨hanswers.rank1 i, ?_⟩
    rw [BitVector.rank1_eq_count, BitVector.toList_ofBytes, count_take_eq_countBelow]
  · refine fun i ↦ ⟨hanswers.rank0 i, ?_⟩
    rw [BitVector.rank0_eq_count, BitVector.toList_ofBytes, count_take_eq_countBelow]
  · refine fun n ↦ ⟨hanswers.select1 n, ?_⟩
    rw [BitVector.select1_eq_positionOf, BitVector.toList_ofBytes]
    exact selects_positionOf true n
  · refine fun n ↦ ⟨hanswers.select0 n, ?_⟩
    rw [BitVector.select0_eq_positionOf, BitVector.toList_ofBytes]
    exact selects_positionOf false n

/-- A block of ones, and a byte behind it with ones at its first and its third place: the zeros that
fill up its word are not found. -/
theorem rank_select_by_counting_past_block :
    let image : List UInt8 := List.replicate 64 0xFF ++ [0x05]
    image.length * 8 < UInt32.size ∧ ∃ d, ofBytes image = .ok d ∧ d.rank1 600 = .ok 514 ∧
      d.select1 513 = .ok (some 514) ∧ d.select0 0 = .ok (some 513) ∧ d.select0 6 = .ok none := by
  intro image
  have hbits : image.length * 8 < UInt32.size := by decide
  obtain ⟨d, hd, -, -, hrank, -, hone, hzero⟩ := rank_select_by_counting hbits
  refine ⟨hbits, d, hd, ?_, ?_, ?_, ?_⟩
  · rw [(hrank 600).1]
    cbv
  · rw [(hone 513).1]
    cbv
  · rw [(hzero 0).1]
    cbv
  · rw [(hzero 6).1]
    cbv

end BlockDirectory

end KanaKanji
