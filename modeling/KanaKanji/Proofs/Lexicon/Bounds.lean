import Mathlib
import KanaKanji.Proofs.Lexicon.Prefixes
import KanaKanji.Proofs.Lexicon.Records
import KanaKanji.Proofs.Louds.Bounds

/-!
# Lookups within bounds

Four areas that open as a lexicon may have been written by anyone: slots may overlap, many records
may point at one surface, and the trie may lead in a circle or number keys that end at no node. What
opening has checked is written down in `Opened`: there is a slot for each key id, the records of a
slot are in the table, and each record describes the word that was made of it.

A lexicon is searched again in guarded steps that work on the areas themselves. The slot of a key,
its records and their surfaces are cut out of the bytes when a word is asked for, with a fault past
the end of the index or the table; a surface outside the pool would be empty, and what is no text in
it would be replaced. None of this comes about: the searches give what the lexicon gives, and each
word has the very bytes that its record points at (`lookups_in_bounds`).
-/

set_option autoImplicit false

namespace KanaKanji.Lexicon

open Outcomes

/-! ### Pieces -/

theorem getElem?_pieces {size count i : ℕ} (hi : i < count) (bytes : List UInt8) :
    (pieces size count bytes)[i]? = some ((bytes.drop (i * size)).take size) := by
  induction count generalizing i bytes with
  | zero => exact absurd hi (Nat.not_lt_zero i)
  | succ count ih =>
    cases i with
    | zero => rw [pieces, List.getElem?_cons_zero, Nat.zero_mul, List.drop_zero]
    | succ i =>
      rw [pieces, List.getElem?_cons_succ, ih (Nat.lt_of_succ_lt_succ hi), List.drop_drop,
        Nat.succ_mul, Nat.add_comm]

theorem length_pieces (size count : ℕ) (bytes : List UInt8) :
    (pieces size count bytes).length = count := by
  induction count generalizing bytes with
  | zero => rfl
  | succ count ih => rw [pieces, List.length_cons, ih]

/-- Pieces in a row, cut out before or after they are cut apart. -/
theorem pieces_take_drop {start count total : ℕ} (hle : start + count ≤ total) (size : ℕ)
    (bytes : List UInt8) :
    pieces size count ((bytes.drop (start * size)).take (count * size)) =
      ((pieces size total bytes).drop start).take count := by
  refine List.ext_getElem? fun i ↦ ?_
  by_cases hi : i < count
  · have hroom : size ≤ count * size - i * size := by
      rw [← Nat.sub_mul]
      exact Nat.le_mul_of_pos_left size (by omega)
    rw [getElem?_pieces hi, List.getElem?_take_of_lt hi, List.getElem?_drop,
      getElem?_pieces (by omega), List.drop_take, List.take_take, List.drop_drop,
      Nat.min_eq_left hroom, Nat.add_mul]
  · rw [List.getElem?_eq_none (by rw [length_pieces]; omega), List.getElem?_eq_none
      (by rw [List.length_take]; omega)]

theorem length_of_mem_pieces {size count : ℕ} {bytes piece : List UInt8}
    (hlength : count * size ≤ bytes.length) (hpiece : piece ∈ pieces size count bytes) :
    piece.length = size := by
  obtain ⟨i, hi⟩ := List.getElem?_of_mem hpiece
  have hlt : i < count := by
    have hbound := (List.getElem?_eq_some_iff.mp hi).1
    rwa [length_pieces] at hbound
  have hle : (i + 1) * size ≤ count * size := Nat.mul_le_mul_right size hlt
  rw [Nat.succ_mul] at hle
  rw [getElem?_pieces hlt, Option.some.injEq] at hi
  rw [← hi, List.length_take, List.length_drop]
  omega

/-! ### What opening has checked -/

/-- The slot of a key in the index. -/
def Areas.slot (areas : Areas) (keyId : ℕ) : Slot :=
  .decode ((areas.index.drop (keyId * slotSize)).take slotSize)

/-- The records of the table. -/
def Areas.table (areas : Areas) : List Record :=
  (pieces recordSize (areas.records.length / recordSize) areas.records).map Record.decode

/-- The records of a key. -/
def Areas.recordsOf (areas : Areas) (keyId : ℕ) : List Record :=
  (areas.table.drop (areas.slot keyId).start).take (areas.slot keyId).count

/-- Each of the words is described by a record of the table. -/
def Areas.DescribeAll (areas : Areas) (words : List Word) : Prop :=
  ∀ word ∈ words, ∃ r ∈ areas.table, r.Describes areas.pool word

/-- The record of a word describes it. -/
theorem Record.describes_of_word {pool : List UInt8} {r : Record} {word : Word}
    (hoffset : r.offset < UInt32.size) (hsize : r.size < UInt16.size)
    (hword : r.word pool.toArray = .ok word) : r.Describes pool word := by
  rw [Record.word] at hword
  split at hword
  · exact absurd hword (by simp)
  next hle =>
  rw [List.size_toArray, not_lt] at hle
  split at hword
  · exact absurd hword (by simp)
  next surface htext =>
  obtain rfl := Except.ok.inj hword
  have hslice : (pool.drop r.offset).take r.size = Utf8.encode surface := by
    rw [← Utf8.decode?_eq_some_iff.mp htext]
    simp [List.extract_eq_take_drop]
  have hlength : r.size = (Utf8.encode surface).length := by
    rw [← hslice, List.length_take, List.length_drop]
    omega
  exact ⟨⟨hoffset, hlength ▸ hle, hlength ▸ hslice⟩, hlength, hsize, rfl, rfl, rfl⟩

/-- A lexicon that was opened from areas: its slots are those of the index and within the table, and
each record describes a word of its own. -/
structure Opened (areas : Areas) (l : Lexicon) : Prop where
  trie_eq : Louds.Trie.ofBytes areas.trie = .ok l.trie
  length_index : areas.index.length = l.numReadings * slotSize
  slots_eq : l.slots.toList = (pieces slotSize l.numReadings areas.index).map Slot.decode
  within : ∀ slot ∈ l.slots.toList, slot.start + slot.count ≤ areas.table.length
  describes : List.Forall₂ (Record.Describes areas.pool) areas.table l.words.toList

theorem length_table (areas : Areas) : areas.table.length = areas.records.length / recordSize := by
  rw [Areas.table, List.length_map, length_pieces]

theorem opened_of_ofAreas {areas : Areas} {l : Lexicon} (hopen : ofAreas areas = .ok l) :
    Opened areas l := by
  simp only [ofAreas, bind_eq_ok_iff, mapError_eq_ok_iff, ite_throw_eq_ok_iff,
    pure_eq_ok_iff] at hopen
  obtain ⟨t, htrie, hindex, -, hslots, words, hwords, rfl⟩ := hopen
  refine ⟨htrie, not_not.mp hindex, rfl, fun slot hslot ↦ ?_, ?_⟩
  · rw [Bool.not_eq_true, List.any_eq_false] at hslots
    rw [length_table]
    simpa using hslots slot hslot
  · refine List.forall₂_map_left_iff.mpr ((mapM_eq_ok_iff.mp hwords).imp fun piece word hword ↦ ?_)
    exact Record.describes_of_word (numberAt_lt 0 4 piece) (numberAt_lt 4 2 piece) hword

section Words

variable {areas : Areas} {l : Lexicon} (hopened : Opened areas l) {keyId : ℕ}

include hopened

theorem Opened.slots_getElem? (hkey : keyId < l.numReadings) :
    l.slots[keyId]? = some (areas.slot keyId) := by
  rw [← Array.getElem?_toList, hopened.slots_eq, List.getElem?_map, getElem?_pieces hkey]
  rfl

theorem Opened.slot_le (hkey : keyId < l.numReadings) :
    (areas.slot keyId).start + (areas.slot keyId).count ≤ areas.table.length :=
  hopened.within _ (List.mem_of_getElem? (by
    rw [Array.getElem?_toList, hopened.slots_getElem? hkey]))

theorem Opened.wordsOf_eq_nil (hkey : l.numReadings ≤ keyId) : l.wordsOf keyId = [] := by
  have hnone : l.slots[keyId]? = none := by
    rw [← Array.getElem?_toList, hopened.slots_eq, List.getElem?_eq_none]
    rwa [List.length_map, length_pieces]
  rw [wordsOf, hnone]

/-- The records of a key describe its words one by one. -/
theorem Opened.describes_wordsOf (hkey : keyId < l.numReadings) :
    List.Forall₂ (Record.Describes areas.pool) (areas.recordsOf keyId) (l.wordsOf keyId) := by
  have hwords : l.wordsOf keyId =
      (l.words.toList.drop (areas.slot keyId).start).take (areas.slot keyId).count := by
    rw [wordsOf, hopened.slots_getElem? hkey]
    simp [List.extract_eq_take_drop]
  rw [hwords]
  exact List.forall₂_take _ (List.forall₂_drop _ hopened.describes)

theorem Opened.length_wordsOf (hkey : keyId < l.numReadings) :
    (l.wordsOf keyId).length = (areas.slot keyId).count := by
  have hle := hopened.slot_le hkey
  rw [← (hopened.describes_wordsOf hkey).length_eq, Areas.recordsOf, List.length_take,
    List.length_drop]
  omega

theorem Opened.describeAll_wordsOf (keyId : ℕ) : areas.DescribeAll (l.wordsOf keyId) := by
  intro word hword
  by_cases hkey : keyId < l.numReadings
  · obtain ⟨r, hr, hdescribes⟩ :=
      Lists.exists_mem_of_forall₂ (hopened.describes_wordsOf hkey) hword
    exact ⟨r, List.mem_of_mem_drop (List.mem_of_mem_take hr), hdescribes⟩
  · rw [hopened.wordsOf_eq_nil (Nat.le_of_not_lt hkey)] at hword
    exact absurd hword List.not_mem_nil

/-- Words of a node that some way leads to are described. -/
theorem Opened.describeAll_of_bind {node? : Option ℕ} {words : List Word}
    (hwords : node?.bind l.wordsAt? = some words) : areas.DescribeAll words := by
  obtain ⟨node, -, hwords⟩ := Option.bind_eq_some_iff.mp hwords
  obtain ⟨keyId, -, rfl⟩ := Option.map_eq_some_iff.mp hwords
  exact hopened.describeAll_wordsOf keyId

theorem Opened.describeAll_lookup (reading : String) : areas.DescribeAll (l.lookup reading) := by
  rw [lookup]
  rcases hwords : (l.trie.exactMatch? (Utf8.encode reading)).bind l.wordsAt? with _ | words
  · exact fun word hword ↦ absurd hword List.not_mem_nil
  · exact hopened.describeAll_of_bind hwords

end Words

namespace Guarded

open KanaKanji.Guarded

/-! ### Guarded searches -/

/-- A number of so many bytes from a place on. -/
def numberAt (place width : ℕ) (bytes : List UInt8) : Except Fault ℕ :=
  (slice bytes place (place + width)).map LittleEndian.decode

/-- The slot in eight bytes. -/
def slot (bytes : List UInt8) : Except Fault Slot := do
  let start ← numberAt 0 4 bytes
  let count ← numberAt 4 4 bytes
  return ⟨start, count⟩

/-- The record in twelve bytes. -/
def record (bytes : List UInt8) : Except Fault Record := do
  let offset ← numberAt 0 4 bytes
  let size ← numberAt 4 2 bytes
  let cost ← numberAt 6 2 bytes
  let leftId ← numberAt 8 2 bytes
  let rightId ← numberAt 10 2 bytes
  return ⟨offset, size, (UInt16.ofNat cost).toInt16, UInt16.ofNat leftId, UInt16.ofNat rightId⟩

/-- The word of a record. Its surface is empty where the record points past the pool, and what is no
text in it is replaced. -/
def word (pool : List UInt8) (r : Record) : Word where
  surface := ((LittleEndian.slice? pool r.offset r.size).map Utf8.decodeLossy).getD ""
  cost := r.cost
  leftId := r.leftId
  rightId := r.rightId

section Searches

variable (t : Louds.Trie) (areas : Areas)

/-- The words of a key, none past the end of the index. -/
def wordsOf (keyId : ℕ) : Except Fault (List Word) :=
  match LittleEndian.slice? areas.index (keyId * slotSize) slotSize with
  | none => .ok []
  | some bytes => do
    let slot ← slot bytes
    let part ← slice areas.records (slot.start * recordSize)
      ((slot.start + slot.count) * recordSize)
    (pieces recordSize (part.length / recordSize) part).mapM fun piece ↦ do
      return word areas.pool (← record piece)

/-- The words of the reading that ends at a node, if one does. -/
def wordsAt? (node : ℕ) : Except Fault (Option (List Word)) :=
  match Louds.Guarded.keyId? t node with
  | none => .ok none
  | some keyId => (wordsOf areas keyId).map some

/-- The words of a reading. -/
def lookup (reading : String) : Except Fault (List Word) := do
  match ← Louds.Guarded.exactMatch? t (Utf8.encode reading) with
  | none => return []
  | some node => return (← wordsAt? t areas node).getD []

/-- The reading of a match along a query, none if the match ends within a character. -/
def finding? (bytes : List UInt8) (found : Louds.PrefixMatch) :
    Except Fault (Option Finding) := do
  match Utf8.decode? (← slice bytes 0 found.length) with
  | none => return none
  | some reading => return some ⟨reading, ← wordsOf areas found.keyId⟩

/-- The readings that a text begins with. -/
def commonPrefixSearch (query : String) : Except Fault (List Finding) := do
  let bytes := Utf8.encode query
  let found ← Louds.Guarded.commonPrefixSearch t bytes
  return (← found.mapM (finding? areas bytes)).reduceOption

/-- The readings at which a walk along the variants of the characters ends. -/
def walkVariants : List Char → (node : ℕ) → (reading : List Char) → Except Fault (List Finding)
  | [], _, _ => .ok []
  | c :: rest, node, reading => do
    let findings ← (Modifier.variants c).mapM fun v ↦ do
      match ← Louds.Guarded.descend? t node (String.utf8EncodeChar v) with
      | none => return []
      | some next =>
        let reading := reading ++ [v]
        let here ← wordsAt? t areas next
        let behind ← walkVariants rest next reading
        return (here.map (⟨String.ofList reading, ·⟩)).toList ++ behind
    return findings.flatten

/-- The readings that a text begins with when modifiers are ignored. -/
def modifierInsensitiveSearch (query : String) : Except Fault (List Finding) :=
  (walkVariants t areas query.toList Louds.Trie.root []).map
    (Ranking.sortOn (variantRank query))

end Searches

/-! ### Searches within bounds -/

theorem numberAt_eq_ok {place width : ℕ} {bytes : List UInt8}
    (hroom : place + width ≤ bytes.length) :
    numberAt place width bytes = .ok (Lexicon.numberAt place width bytes) := by
  rw [numberAt, slice_eq_ok (Nat.le_add_right _ _) hroom, Nat.add_sub_cancel_left]
  rfl

theorem slot_eq_ok {bytes : List UInt8} (hlength : bytes.length = slotSize) :
    slot bytes = .ok (.decode bytes) := by
  rw [slotSize] at hlength
  rw [slot, numberAt_eq_ok (by omega), ok_bind, numberAt_eq_ok (by omega), ok_bind]
  rfl

theorem record_eq_ok {bytes : List UInt8} (hlength : bytes.length = recordSize) :
    record bytes = .ok (.decode bytes) := by
  rw [recordSize] at hlength
  rw [record, numberAt_eq_ok (by omega), ok_bind, numberAt_eq_ok (by omega), ok_bind,
    numberAt_eq_ok (by omega), ok_bind, numberAt_eq_ok (by omega), ok_bind,
    numberAt_eq_ok (by omega), ok_bind]
  rfl

/-- Nothing is left out or replaced in a word that its record describes. -/
theorem word_eq {pool : List UInt8} {r : Record} {w : Word} (hdescribes : r.Describes pool w) :
    word pool r = w := by
  have hslice : LittleEndian.slice? pool r.offset r.size = some (Utf8.encode w.surface) := by
    rw [LittleEndian.slice?_eq_some_iff, hdescribes.size_eq]
    exact ⟨hdescribes.stands.le_length, hdescribes.stands.slice_eq⟩
  rw [word, hslice, Option.map_some, Utf8.decodeLossy_encode, Option.getD_some,
    hdescribes.cost_eq, hdescribes.leftId_eq, hdescribes.rightId_eq]

section Opened

variable {areas : Areas} {l : Lexicon} (hopened : Opened areas l)

include hopened

/-- The pieces that are cut out for a key are the pieces of the table for it. -/
theorem slice_records_eq_ok {keyId : ℕ} (hkey : keyId < l.numReadings) :
    ∃ part,
      slice areas.records ((areas.slot keyId).start * recordSize)
        (((areas.slot keyId).start + (areas.slot keyId).count) * recordSize) = .ok part ∧
      (∀ piece ∈ pieces recordSize (part.length / recordSize) part, piece.length = recordSize) ∧
      (pieces recordSize (part.length / recordSize) part).map Record.decode =
        areas.recordsOf keyId := by
  set slot := areas.slot keyId
  have hle : slot.start + slot.count ≤ areas.records.length / recordSize :=
    length_table areas ▸ hopened.slot_le hkey
  have hstop : (slot.start + slot.count) * recordSize ≤ areas.records.length :=
    (Nat.mul_le_mul_right recordSize hle).trans (Nat.div_mul_le_self _ _)
  have hsize : (slot.start + slot.count) * recordSize - slot.start * recordSize =
      slot.count * recordSize := by
    rw [Nat.add_mul, Nat.add_sub_cancel_left]
  have hlength : ((areas.records.drop (slot.start * recordSize)).take
      (slot.count * recordSize)).length = slot.count * recordSize := by
    rw [Nat.add_mul] at hstop
    rw [List.length_take, List.length_drop]
    omega
  refine ⟨_, slice_eq_ok (Nat.mul_le_mul_right recordSize (Nat.le_add_right _ _)) hstop, ?_⟩
  rw [hsize, hlength, Nat.mul_div_cancel _ (by decide)]
  refine ⟨fun piece hpiece ↦ length_of_mem_pieces hlength.ge hpiece, ?_⟩
  rw [pieces_take_drop hle, Areas.recordsOf, Areas.table, List.map_take, List.map_drop]

theorem wordsOf_eq_ok (keyId : ℕ) : wordsOf areas keyId = .ok (l.wordsOf keyId) := by
  have hindex := hopened.length_index
  by_cases hkey : keyId < l.numReadings
  · have hroom : (keyId + 1) * slotSize ≤ l.numReadings * slotSize :=
      Nat.mul_le_mul_right slotSize hkey
    rw [Nat.succ_mul] at hroom
    have hbytes : LittleEndian.slice? areas.index (keyId * slotSize) slotSize =
        some ((areas.index.drop (keyId * slotSize)).take slotSize) :=
      LittleEndian.slice?_eq_some_iff.mpr ⟨by omega, rfl⟩
    have hslot : slot ((areas.index.drop (keyId * slotSize)).take slotSize) =
        .ok (areas.slot keyId) := by
      refine slot_eq_ok ?_
      rw [List.length_take, List.length_drop]
      omega
    obtain ⟨part, hpart, hpieces, hrecords⟩ := slice_records_eq_ok hopened hkey
    have hdescribes := hopened.describes_wordsOf hkey
    rw [← hrecords, List.forall₂_map_left_iff] at hdescribes
    rw [wordsOf, hbytes]
    dsimp only
    rw [hslot, ok_bind, hpart, ok_bind, mapM_eq_ok_iff]
    refine ((List.forall₂_and_left _ _).mpr ⟨hpieces, hdescribes⟩).imp fun piece w hpiece ↦ ?_
    rw [record_eq_ok hpiece.1, ok_bind, word_eq hpiece.2]
    rfl
  · have hnone : LittleEndian.slice? areas.index (keyId * slotSize) slotSize = none := by
      have hle : l.numReadings * slotSize ≤ keyId * slotSize :=
        Nat.mul_le_mul_right slotSize (Nat.le_of_not_lt hkey)
      rw [LittleEndian.slice?, if_neg]
      rw [slotSize] at hindex hle ⊢
      omega
    rw [wordsOf, hnone, hopened.wordsOf_eq_nil (Nat.le_of_not_lt hkey)]

theorem finding?_eq_ok {bytes : List UInt8} {found : Louds.PrefixMatch}
    (hlength : found.length ≤ bytes.length) :
    finding? areas bytes found =
      .ok ((Utf8.decode? (bytes.take found.length)).map (⟨·, l.wordsOf found.keyId⟩)) := by
  rw [finding?, slice_eq_ok (Nat.zero_le _) hlength, ok_bind, List.drop_zero, Nat.sub_zero]
  cases Utf8.decode? (bytes.take found.length) with
  | none => rfl
  | some reading =>
    dsimp only
    rw [wordsOf_eq_ok hopened]
    rfl

variable (hnodes : l.trie.numNodes < UInt32.size) (hkeys : l.trie.numKeys < UInt32.size)

include hkeys

theorem wordsAt?_eq_ok (node : ℕ) : wordsAt? l.trie areas node = .ok (l.wordsAt? node) := by
  rw [wordsAt?, Louds.Guarded.keyId?_eq hkeys, Lexicon.wordsAt?]
  cases l.trie.keyId? node with
  | none => rfl
  | some keyId =>
    dsimp only
    rw [wordsOf_eq_ok hopened]
    rfl

include hnodes

theorem lookup_eq_ok (reading : String) : lookup l.trie areas reading = .ok (l.lookup reading) := by
  rw [lookup, Louds.Guarded.exactMatch?_eq_ok hnodes, ok_bind, Lexicon.lookup]
  cases l.trie.exactMatch? (Utf8.encode reading) with
  | none => rfl
  | some node =>
    dsimp only
    rw [wordsAt?_eq_ok hopened hkeys, ok_bind]
    rfl

theorem commonPrefixSearch_eq_ok (query : String) :
    commonPrefixSearch l.trie areas query = .ok (l.commonPrefixSearch query) := by
  rw [commonPrefixSearch, Louds.Guarded.commonPrefixSearch_eq_ok hnodes hkeys, ok_bind,
    bind_eq_ok_iff]
  refine ⟨_, mapM_eq_ok_map fun found hfound ↦ finding?_eq_ok hopened ?_, ?_⟩
  · exact (Louds.Trie.mem_commonPrefixSearch_iff.mp hfound).2.1
  · rw [pure_eq_ok_iff, List.reduceOption, List.filterMap_map]
    rfl

theorem walkVariants_eq_ok (cs : List Char) (node : ℕ) (reading : List Char) :
    walkVariants l.trie areas cs node reading = .ok (l.walkVariants cs node reading) := by
  induction cs generalizing node reading with
  | nil => rfl
  | cons c rest ih =>
    rw [walkVariants, Lexicon.walkVariants, List.flatMap_def, bind_eq_ok_iff]
    refine ⟨_, mapM_eq_ok_map fun v _ ↦ ?_, rfl⟩
    rw [Louds.Guarded.descend?_eq_ok hnodes, ok_bind]
    cases l.trie.descend? node (String.utf8EncodeChar v) with
    | none => rfl
    | some next =>
      dsimp only
      rw [wordsAt?_eq_ok hopened hkeys, ok_bind, ih, ok_bind]
      rfl

theorem modifierInsensitiveSearch_eq_ok (query : String) :
    modifierInsensitiveSearch l.trie areas query = .ok (l.modifierInsensitiveSearch query) := by
  rw [modifierInsensitiveSearch, walkVariants_eq_ok hopened hnodes hkeys]
  rfl

end Opened

/-- Areas that open as a lexicon are searched without a fault, if the bits of the trie can be
numbered in 32 bits. A key has as many words as its slot counts, and an id of no key has none. Each
word that is found has the numbers of a record of the table, and for its surface the bytes that the
record points at. -/
theorem lookups_in_bounds {areas : Areas} {l : Lexicon} (hopen : ofAreas areas = .ok l)
    (hdegrees : l.trie.degrees.length < UInt32.size)
    (hterminals : l.trie.terminals.length < UInt32.size) :
    (∀ keyId, wordsOf areas keyId = .ok (l.wordsOf keyId)) ∧
      (∀ keyId < l.numReadings, (l.wordsOf keyId).length = (areas.slot keyId).count ∧
        List.Forall₂ (Record.Describes areas.pool) (areas.recordsOf keyId) (l.wordsOf keyId)) ∧
      (∀ keyId, l.numReadings ≤ keyId → l.wordsOf keyId = []) ∧
      (∀ reading, lookup l.trie areas reading = .ok (l.lookup reading) ∧
        areas.DescribeAll (l.lookup reading)) ∧
      (∀ query, commonPrefixSearch l.trie areas query = .ok (l.commonPrefixSearch query) ∧
        ∀ found ∈ l.commonPrefixSearch query, areas.DescribeAll found.words) ∧
      ∀ query,
        modifierInsensitiveSearch l.trie areas query = .ok (l.modifierInsensitiveSearch query) ∧
          ∀ found ∈ l.modifierInsensitiveSearch query, areas.DescribeAll found.words := by
  have hopened := opened_of_ofAreas hopen
  have hnodes := Louds.Guarded.numNodes_lt hdegrees
  have hkeys := Louds.Guarded.numKeys_lt hterminals
  exact ⟨wordsOf_eq_ok hopened,
    fun keyId hkey ↦ ⟨hopened.length_wordsOf hkey, hopened.describes_wordsOf hkey⟩,
    fun keyId hkey ↦ hopened.wordsOf_eq_nil hkey,
    fun reading ↦ ⟨lookup_eq_ok hopened hnodes hkeys reading,
      hopened.describeAll_lookup reading⟩,
    fun query ↦ ⟨commonPrefixSearch_eq_ok hopened hnodes hkeys query,
      fun found hfound ↦
        hopened.describeAll_of_bind (l.mem_commonPrefixSearch_iff.mp hfound).2.2⟩,
    fun query ↦ ⟨modifierInsensitiveSearch_eq_ok hopened hnodes hkeys query,
      fun found hfound ↦
        hopened.describeAll_of_bind (l.mem_modifierInsensitiveSearch_iff.mp hfound).2.2⟩⟩

/-- A trie with the reading `a`, and with a second key that ends at no node. The slots of the two
overlap, and so do the surfaces. -/
def overlappingAreas : Areas where
  trie := [1, 0, 0, 0, 1, 0, 0, 0, 8, 0, 0, 0, 2, 0, 0, 0, 0x05, 0x12, 0, 97]
  index := [0, 0, 0, 0, 2, 0, 0, 0, 1, 0, 0, 0, 1, 0, 0, 0]
  records := [0, 0, 0, 0, 2, 0, 5, 0, 1, 0, 2, 0, 1, 0, 0, 0, 1, 0, 7, 0, 0, 0, 0, 0]
  pool := [97, 98]

/-- Both slots are read, also the one that no reading leads to. -/
theorem lookups_in_bounds_overlapping :
    ∃ l, ofAreas overlappingAreas = .ok l ∧ l.trie.degrees.length < UInt32.size ∧
      l.trie.terminals.length < UInt32.size ∧
      lookup l.trie overlappingAreas "a" = .ok [⟨"ab", 5, 1, 2⟩, ⟨"b", 7, 0, 0⟩] ∧
      wordsOf overlappingAreas 1 = .ok [⟨"b", 7, 0, 0⟩] ∧ wordsOf overlappingAreas 2 = .ok [] := by
  obtain ⟨l, hopen, hdegrees, hterminals, hfirst, hsecond, hnone⟩ :
      ∃ l, ofAreas overlappingAreas = .ok l ∧ l.trie.degrees.length < UInt32.size ∧
        l.trie.terminals.length < UInt32.size ∧
        l.lookup "a" = [⟨"ab", 5, 1, 2⟩, ⟨"b", 7, 0, 0⟩] ∧ l.wordsOf 1 = [⟨"b", 7, 0, 0⟩] ∧
        l.wordsOf 2 = [] :=
    ⟨_, rfl, by decide, by decide, by cbv, by cbv, by cbv⟩
  obtain ⟨hwords, -, -, hlookup, -, -⟩ := lookups_in_bounds hopen hdegrees hterminals
  refine ⟨l, hopen, hdegrees, hterminals, ?_, ?_, ?_⟩
  · rw [(hlookup "a").1, hfirst]
  · rw [hwords, hsecond]
  · rw [hwords, hnone]

end Guarded

end KanaKanji.Lexicon
