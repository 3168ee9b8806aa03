import Mathlib
import KanaKanji.Bits.Vector
import KanaKanji.Proofs.Lists

/-!
# Rank and select by counting

A bit vector answers from a directory of running counts. This module shows that each answer is what
counting along the plain list of bits (`BitVector.toList`) gives: `rank1_eq_count` and
`rank0_eq_count` count the ones and zeros in front of a position, `select1_eq_positionOf` and
`select0_eq_positionOf` find the `n`-th one and the `n`-th zero, and `runOfOnes_eq_takeWhile`
measures the ones in a row. Selecting a one undoes counting the ones in front of it
(`select1_eq_some_iff`), and a row of ones reaches past a place just if a one stands there and no
further zero in front (`lt_runOfOnes_iff`).

On lists, `positionOf_eq_some_iff` says what a position is: the place of a bit of the kind with
exactly `n` of the kind in front. Halving a directory needs no monotone test: `lastWhere_spec` shows
that it ends between an index at which the test holds and the next, at which it does not.
-/

set_option autoImplicit false

namespace KanaKanji

/-! ### Positions in a list of bits -/

@[simp] theorem positionOf_cons_self_zero (kind : Bool) (rest : List Bool) :
    positionOf kind 0 (kind :: rest) = some 0 := by
  simp [positionOf]

@[simp] theorem positionOf_cons_self_succ (kind : Bool) (n : ℕ) (rest : List Bool) :
    positionOf kind (n + 1) (kind :: rest) = (positionOf kind n rest).map (· + 1) := by
  simp [positionOf]

theorem positionOf_cons_of_ne {b kind : Bool} (hb : b ≠ kind) (n : ℕ) (rest : List Bool) :
    positionOf kind n (b :: rest) = (positionOf kind n rest).map (· + 1) := by
  cases n <;> simp [positionOf, hb]

/-- The `n`-th bit of a kind stands at the place of that kind with `n` of the kind in front. -/
theorem positionOf_eq_some_iff {kind : Bool} {n i : ℕ} {bits : List Bool} :
    positionOf kind n bits = some i ↔ bits[i]? = some kind ∧ (bits.take i).count kind = n := by
  induction bits generalizing n i with
  | nil => simp [positionOf]
  | cons b rest ih =>
    by_cases hb : b = kind
    · subst hb
      cases n with
      | zero => cases i <;> simp
      | succ n =>
        cases i with
        | zero => simp
        | succ i => simp [ih]
    · cases i with
      | zero => simp [positionOf_cons_of_ne hb, hb]
      | succ i => simp [positionOf_cons_of_ne hb, hb, ih]

/-- Behind enough bits of the kind to go by, the search goes on in the rest. -/
theorem positionOf_append_of_le {kind : Bool} {n : ℕ} {front back : List Bool}
    (hn : front.count kind ≤ n) :
    positionOf kind n (front ++ back) =
      (positionOf kind (n - front.count kind) back).map (front.length + ·) := by
  induction front generalizing n with
  | nil => simp
  | cons b rest ih =>
    by_cases hb : b = kind
    · subst hb
      rw [List.count_cons_self] at hn ⊢
      obtain ⟨m, rfl⟩ : ∃ m, n = m + 1 := ⟨n - 1, by omega⟩
      rw [List.cons_append, positionOf_cons_self_succ, ih (by omega), Option.map_map,
        Nat.add_sub_add_right]
      congr 1
      funext i
      simp only [Function.comp_apply, List.length_cons]
      omega
    · rw [List.count_cons_of_ne hb] at hn ⊢
      rw [List.cons_append, positionOf_cons_of_ne hb, ih hn, Option.map_map]
      congr 1
      funext i
      simp only [Function.comp_apply, List.length_cons]
      omega

/-- A bit of the kind that stands in the front part is found there. -/
theorem positionOf_append_of_lt {kind : Bool} {n : ℕ} {front back : List Bool}
    (hn : n < front.count kind) :
    positionOf kind n (front ++ back) = positionOf kind n front := by
  induction front generalizing n with
  | nil => simp at hn
  | cons b rest ih =>
    by_cases hb : b = kind
    · subst hb
      rw [List.count_cons_self] at hn
      cases n with
      | zero => simp
      | succ n => rw [List.cons_append, positionOf_cons_self_succ, positionOf_cons_self_succ,
          ih (by omega)]
    · rw [List.count_cons_of_ne hb] at hn
      rw [List.cons_append, positionOf_cons_of_ne hb, positionOf_cons_of_ne hb, ih hn]

/-- No bit is found where there are too few of the kind. -/
theorem positionOf_eq_none_of_count_le {kind : Bool} {n : ℕ} {bits : List Bool}
    (hn : bits.count kind ≤ n) : positionOf kind n bits = none := by
  have hsplit : positionOf kind n (bits ++ []) = _ := positionOf_append_of_le hn
  rwa [List.append_nil, positionOf, Option.map_none] at hsplit

/-- Among enough bits of the kind there is an `n`-th one. -/
theorem exists_positionOf_of_lt_count {kind : Bool} {n : ℕ} {bits : List Bool}
    (hn : n < bits.count kind) : ∃ i, positionOf kind n bits = some i := by
  induction bits generalizing n with
  | nil => simp at hn
  | cons b rest ih =>
    by_cases hb : b = kind
    · subst hb
      rw [List.count_cons_self] at hn
      cases n with
      | zero => exact ⟨0, positionOf_cons_self_zero b rest⟩
      | succ n =>
        obtain ⟨i, hi⟩ := ih (n := n) (by omega)
        exact ⟨i + 1, by rw [positionOf_cons_self_succ, hi, Option.map_some]⟩
    · rw [List.count_cons_of_ne hb] at hn
      obtain ⟨i, hi⟩ := ih hn
      exact ⟨i + 1, by rw [positionOf_cons_of_ne hb, hi, Option.map_some]⟩

/-- Ones in a row reach past a place just if a one stands there and no zero in front. -/
theorem lt_length_takeWhile_iff {k : ℕ} {bits : List Bool} :
    k < (bits.takeWhile id).length ↔ bits[k]? = some true ∧ (bits.take k).count false = 0 := by
  induction bits generalizing k with
  | nil => simp
  | cons b rest ih =>
    cases b with
    | false => cases k <;> simp
    | true =>
      cases k with
      | zero => simp
      | succ k => simpa using ih

/-! ### Halving -/

/-- Halving keeps the test true below and false above, so it ends where the test turns. -/
theorem lastWhere_spec (test : ℕ → Bool) {low high : ℕ} (hlt : low < high)
    (hlow : test low = true) (hhigh : test high = false) :
    lastWhere test low high < high ∧ test (lastWhere test low high) = true ∧
      test (lastWhere test low high + 1) = false := by
  fun_induction lastWhere test low high with
  | case1 low high hclose =>
    obtain rfl : high = low + 1 := by omega
    exact ⟨hlt, hlow, hhigh⟩
  | case2 low high hfar middle hmiddle ih =>
    have hbetween : middle < high := by omega
    exact ih hbetween hmiddle hhigh
  | case3 low high hfar middle hmiddle ih =>
    have hbetween : low < middle := by omega
    obtain ⟨hbound, hturn⟩ := ih hbetween hlow (by simpa using hmiddle)
    exact ⟨by omega, hturn⟩

/-! ### Bytes as bits -/

@[simp] theorem length_byteBits (b : UInt8) : (byteBits b).length = 8 := by
  simp [byteBits]

/-- Eight bits for each byte. -/
@[simp] theorem length_flatMap_byteBits (bytes : List UInt8) :
    (bytes.flatMap byteBits).length = bytes.length * 8 := by
  induction bytes with
  | nil => rfl
  | cons b rest ih =>
    rw [List.flatMap_cons, List.length_append, length_byteBits, ih, List.length_cons]
    omega

/-- The bits of the bytes, parted at a byte. -/
theorem take_flatMap_byteBits (bytes : List UInt8) (i : ℕ) :
    (bytes.flatMap byteBits).take (i * 8) = (bytes.take i).flatMap byteBits := by
  induction bytes generalizing i with
  | nil => simp
  | cons b rest ih =>
    cases i with
    | zero => simp
    | succ i =>
      rw [List.flatMap_cons, List.take_succ_cons, List.flatMap_cons, List.take_append,
        length_byteBits, List.take_of_length_le (by rw [length_byteBits]; omega), ← ih i]
      congr 2
      omega

/-- Each entry of the running counts adds the ones of the bytes before it. -/
theorem getElem?_runningOnes (before i : ℕ) (bytes : List UInt8) (hi : i ≤ bytes.length) :
    (runningOnes before bytes)[i]? =
      some (before + ((bytes.take i).flatMap byteBits).count true) := by
  induction bytes generalizing before i with
  | nil =>
    obtain rfl : i = 0 := by simpa using hi
    simp [runningOnes]
  | cons b rest ih =>
    cases i with
    | zero => simp [runningOnes]
    | succ i =>
      rw [runningOnes, List.getElem?_cons_succ, ih _ _ (by simpa using hi), List.take_succ_cons,
        List.flatMap_cons, List.count_append, byteOnes, Nat.add_assoc]

namespace BitVector

variable (v : BitVector)

theorem length_toList : v.toList.length = v.length := by
  simp [toList, length]

@[simp] theorem toList_ofBytes (bytes : List UInt8) :
    (ofBytes bytes).toList = bytes.flatMap byteBits := by
  simp [toList, ofBytes]

/-- The directory counts the ones before each byte. -/
theorem onesBeforeByte_eq_count {i : ℕ} (hi : i ≤ v.bytes.size) :
    v.onesBeforeByte i = (v.toList.take (i * 8)).count true := by
  have hentry := getElem?_runningOnes 0 i v.bytes.toList (by simpa using hi)
  rw [onesBeforeByte, v.onesBefore_eq, toList, take_flatMap_byteBits, Array.getD_eq_getD_getElem?,
    List.getElem?_toArray, hentry]
  simp

/-- What is not a one is a zero. -/
theorem zerosBeforeByte_eq_count {i : ℕ} (hi : i ≤ v.bytes.size) :
    v.zerosBeforeByte i = (v.toList.take (i * 8)).count false := by
  have hsum := List.count_false_add_count_true (v.toList.take (i * 8))
  have hlength : (v.toList.take (i * 8)).length = i * 8 := by
    rw [List.length_take, length_toList, length]
    omega
  rw [zerosBeforeByte, onesBeforeByte_eq_count v hi]
  omega

theorem ones_eq_count : v.ones = v.toList.count true := by
  rw [ones, onesBeforeByte_eq_count v le_rfl, List.take_of_length_le]
  rw [length_toList, length]

/-- The bits of a byte stand in their place among the bits of the vector. -/
theorem toList_eq_append {i : ℕ} (hi : i < v.bytes.size) :
    v.toList = v.toList.take (i * 8) ++
      (byteBits v.bytes[i] ++ (v.bytes.toList.drop (i + 1)).flatMap byteBits) := by
  have hbyte : v.bytes.toList[i]? = some v.bytes[i] := by
    rw [Array.getElem?_toList, Array.getElem?_eq_getElem hi]
  rw [toList, take_flatMap_byteBits]
  exact Lists.flatMap_eq_append byteBits hbyte

theorem length_take_toList {i : ℕ} (hi : i ≤ v.bytes.size) :
    (v.toList.take (i * 8)).length = i * 8 := by
  rw [List.length_take, length_toList, length]
  omega

/-- The bits in front of a position are those of the whole bytes before it and the first of its
own byte. -/
theorem take_toList {i j : ℕ} (hi : i < v.bytes.size) (hj : j ≤ 8) :
    v.toList.take (i * 8 + j) = v.toList.take (i * 8) ++ (byteBits v.bytes[i]).take j := by
  have hfront : (v.toList.take (i * 8)).take (i * 8 + j) = v.toList.take (i * 8) := by
    rw [List.take_take, min_eq_right (by omega)]
  conv_lhs => rw [toList_eq_append v hi]
  rw [List.take_append, hfront, length_take_toList v hi.le, Nat.add_sub_cancel_left,
    List.take_append_of_le_length (by rwa [length_byteBits])]

/-- A position within a byte reads that bit of the byte, and one past the end reads zero. -/
theorem get_eq_getD (i : ℕ) : v.get i = v.toList.getD i false := by
  unfold get
  split
  · next hi =>
    have hfront := length_take_toList v hi.le
    rw [toList_eq_append v hi, List.getD_append_right _ _ _ _ (by omega), hfront,
      List.getD_append _ _ _ _ (by rw [length_byteBits]; omega)]
    have hrest : i - i / 8 * 8 = i % 8 := by omega
    rw [hrest, List.getD_eq_getElem _ _ (by rw [length_byteBits]; omega)]
    simp [byteBits]
  · next hi =>
    rw [List.getD_eq_default]
    rw [length_toList, length]
    omega

theorem get_eq_true_iff {i : ℕ} : v.get i = true ↔ v.toList[i]? = some true := by
  rw [get_eq_getD, List.getD_eq_getElem?_getD]
  cases v.toList[i]? <;> simp

/-! ### Rank -/

/-- The rank of ones counts them in front of a position. -/
theorem rank1_eq_count (i : ℕ) : v.rank1 i = (v.toList.take i).count true := by
  unfold rank1
  split
  · next hi =>
    have htake := take_toList v hi (show i % 8 ≤ 8 by omega)
    rw [Nat.div_add_mod'] at htake
    rw [htake, List.count_append, onesBeforeByte_eq_count v hi.le]
  · next hi =>
    rw [ones_eq_count, List.take_of_length_le]
    rw [length_toList, length]
    omega

/-- The rank of zeros counts them in front of a position. -/
theorem rank0_eq_count (i : ℕ) : v.rank0 i = (v.toList.take i).count false := by
  have hsum := List.count_false_add_count_true (v.toList.take i)
  rw [List.length_take, length_toList] at hsum
  rw [rank0, rank1_eq_count]
  omega

/-- In front of a position every bit is a one or a zero. -/
theorem rank1_add_rank0 (i : ℕ) : v.rank1 i + v.rank0 i = min i v.length := by
  rw [rank1_eq_count, rank0_eq_count, Nat.add_comm, List.count_false_add_count_true,
    List.length_take, length_toList]

/-- The ones in front of a one are not all of them. -/
theorem rank1_lt_ones {i : ℕ} (hi : v.get i = true) : v.rank1 i < v.ones := by
  have hsplit := Lists.eq_take_append_cons_drop (v.get_eq_true_iff.mp hi)
  rw [rank1_eq_count, ones_eq_count]
  conv_rhs => rw [hsplit, List.count_append, List.count_cons_self]
  omega

theorem ones_le_length : v.ones ≤ v.length := by
  rw [ones_eq_count, ← length_toList]
  exact List.count_le_length

/-- Behind a one the count of ones is greater by one. -/
theorem rank1_succ_of_one {i : ℕ} (hi : v.get i = true) : v.rank1 (i + 1) = v.rank1 i + 1 := by
  rw [rank1_eq_count, rank1_eq_count, List.take_add_one, v.get_eq_true_iff.mp hi]
  simp

/-- Behind a zero the count of zeros is greater by one. -/
theorem rank0_succ_of_zero {i : ℕ} (hi : v.toList[i]? = some false) :
    v.rank0 (i + 1) = v.rank0 i + 1 := by
  rw [rank0_eq_count, rank0_eq_count, List.take_add_one, hi]
  simp

/-! ### Select -/

/-- A directory that counts the bits of a kind before each byte leads to the `n`-th of them. -/
theorem selectWith_eq_positionOf {kind : Bool} {before : ℕ → ℕ} (n : ℕ)
    (hbefore : ∀ i ≤ v.bytes.size, before i = (v.toList.take (i * 8)).count kind) :
    v.selectWith kind before n = positionOf kind n v.toList := by
  have htotal : before v.bytes.size = v.toList.count kind := by
    rw [hbefore _ le_rfl, List.take_of_length_le (by rw [length_toList, length])]
  unfold selectWith
  split
  · next hn =>
    have hstart : before 0 = 0 := by
      rw [hbefore 0 (Nat.zero_le _)]
      simp
    have hsize : 0 < v.bytes.size := by
      by_contra hempty
      have hzero : v.bytes.size = 0 := by omega
      rw [hzero, hstart] at hn
      omega
    obtain ⟨hbyte, hle, hgt⟩ := lastWhere_spec (fun i ↦ decide (before i ≤ n)) hsize
      (by simp [hstart]) (by simpa using hn)
    set byte := lastWhere (fun i ↦ decide (before i ≤ n)) 0 v.bytes.size
    have hbelow : (v.toList.take (byte * 8)).count kind ≤ n := by
      rw [← hbefore byte hbyte.le]
      simpa using hle
    have habove : n < (v.toList.take ((byte + 1) * 8)).count kind := by
      rw [← hbefore (byte + 1) hbyte]
      simpa using hgt
    have hnext : v.toList.take ((byte + 1) * 8) =
        v.toList.take (byte * 8) ++ byteBits v.bytes[byte] := by
      rw [Nat.add_mul, Nat.one_mul, take_toList v hbyte le_rfl,
        List.take_of_length_le (length_byteBits _).le]
    rw [hnext, List.count_append] at habove
    conv_rhs => rw [toList_eq_append v hbyte, positionOf_append_of_le hbelow,
      length_take_toList v hbyte.le, positionOf_append_of_lt (by omega)]
    dsimp only
    rw [Array.getElem?_eq_getElem hbyte, hbefore byte hbyte.le, Option.bind_some]
  · next hn =>
    rw [positionOf_eq_none_of_count_le]
    omega

/-- Selecting a one finds its position among the bits. -/
theorem select1_eq_positionOf (n : ℕ) : v.select1 n = positionOf true n v.toList :=
  selectWith_eq_positionOf v n fun _ hi ↦ onesBeforeByte_eq_count v hi

/-- Selecting a zero finds its position among the bits. -/
theorem select0_eq_positionOf (n : ℕ) : v.select0 n = positionOf false n v.toList :=
  selectWith_eq_positionOf v n fun _ hi ↦ zerosBeforeByte_eq_count v hi

/-- The `n`-th one is the one with `n` ones in front. -/
theorem select1_eq_some_iff {n i : ℕ} :
    v.select1 n = some i ↔ v.get i = true ∧ v.rank1 i = n := by
  rw [select1_eq_positionOf, positionOf_eq_some_iff, get_eq_getD, rank1_eq_count,
    List.getD_eq_getElem?_getD]
  cases v.toList[i]? <;> simp

/-- The `n`-th zero is the one with `n` zeros in front. -/
theorem select0_eq_some_iff {n i : ℕ} :
    v.select0 n = some i ↔ v.toList[i]? = some false ∧ v.rank0 i = n := by
  rw [select0_eq_positionOf, positionOf_eq_some_iff, rank0_eq_count]

/-- Where more than `n` zeros stand in front of a position, the `n`-th stands there. -/
theorem exists_select0_of_lt_rank0 {n i : ℕ} (hn : n < v.rank0 i) :
    ∃ j < i, v.select0 n = some j := by
  rw [rank0_eq_count] at hn
  obtain ⟨j, hj⟩ := exists_positionOf_of_lt_count hn
  have hplace := (positionOf_eq_some_iff.mp hj).1
  have hlt : j < i := by
    have hbound := (List.getElem?_eq_some_iff.mp hplace).1
    rw [List.length_take] at hbound
    omega
  refine ⟨j, hlt, ?_⟩
  rw [select0_eq_positionOf, ← List.take_append_drop i v.toList, positionOf_append_of_lt hn, hj]

/-! ### Ones in a row -/

/-- A run of ones ends at the first zero or at the end. -/
theorem runOfOnes_eq_takeWhile (i : ℕ) :
    v.runOfOnes i = ((v.toList.drop i).takeWhile id).length := by
  fun_induction runOfOnes v i with
  | case1 i hone hlt ih =>
    have hbound : i < v.toList.length := by rwa [length_toList]
    rw [get_eq_getD, List.getD_eq_getElem _ _ hbound] at hone
    have hdrop := List.drop_eq_getElem_cons hbound
    rw [ih, hdrop, hone, List.takeWhile_cons_of_pos rfl, List.length_cons]
  | case2 i hzero =>
    by_cases hlt : i < v.toList.length
    · rw [get_eq_getD, List.getD_eq_getElem _ _ hlt] at hzero
      rw [List.drop_eq_getElem_cons hlt, List.takeWhile_cons_of_neg (by simpa using hzero),
        List.length_nil]
    · rw [List.drop_of_length_le (by omega), List.takeWhile_nil, List.length_nil]

/-- A row of ones reaches past a place just if a one stands there and no further zero in front. -/
theorem lt_runOfOnes_iff {i k : ℕ} :
    k < v.runOfOnes i ↔ v.get (i + k) = true ∧ v.rank0 (i + k) = v.rank0 i := by
  rw [runOfOnes_eq_takeWhile, lt_length_takeWhile_iff, get_eq_true_iff, List.getElem?_drop,
    rank0_eq_count, rank0_eq_count, List.take_add, List.count_append]
  exact and_congr_right fun _ ↦ by omega

/-- Along ones in a row the count of ones grows by one a place. -/
theorem rank1_add_of_lt_runOfOnes {i k : ℕ} (hk : k < v.runOfOnes i) :
    v.rank1 (i + k) = v.rank1 i + k := by
  obtain ⟨hone, hzeros⟩ := v.lt_runOfOnes_iff.mp hk
  have hbound := lt_length_of_get hone
  have hfirst := v.rank1_add_rank0 i
  have hlast := v.rank1_add_rank0 (i + k)
  omega

/-- No ones stand behind the end. -/
theorem runOfOnes_length : v.runOfOnes v.length = 0 := by
  rw [runOfOnes_eq_takeWhile, List.drop_of_length_le (length_toList v).le]
  rfl

end BitVector

end KanaKanji
