import Mathlib
import KanaKanji.Proofs.DataSet.RoundTrip
import KanaKanji.Proofs.Lexicon.Placement
import KanaKanji.Proofs.Lexicon.Records

/-!
# Storing a lexicon and opening it again

A draft of a lexicon that was written to a data set opens again (`exists_stored_of_areas`), as a
lexicon that holds the draft (`Stored`): its trie stores the readings level by level, so the id of a
reading is its place among the slots, and each slot cuts the words of its reading out of the table.

`writeTo_roundTrip` is the whole way: whatever regions the data set held before, a lookup gives the
words that were added under a reading, ranked, an enumeration gives each reading once and in
ascending order, and the regions that were there before are unchanged.
-/

set_option autoImplicit false

namespace KanaKanji

namespace Lexicon

open Outcomes

/-! ### Opening the areas -/

/-- A lexicon that holds what was added to a draft. -/
structure Stored (draft : Draft) (l : Lexicon) : Prop where
  trie : l.trie.Stores draft.keys
  slots_eq : l.slots = (slotsFrom 0 draft.lists).toArray
  words_eq : l.words = draft.lists.flatten.toArray

/-- What the areas of a draft are made of. -/
theorem areas_eq_ok {draft : Draft} {areas : Areas} (hareas : draft.areas = .ok areas) :
    Louds.build draft.keys = .ok areas.trie ∧
      areas.index = (slotsFrom 0 draft.lists).flatMap Slot.encode ∧
      ∃ records pool, placeWords .empty draft.lists.flatten = .ok (records, pool) ∧
        records.length < UInt32.size ∧ areas.records = records.flatMap Record.encode ∧
        areas.pool = pool.toBytes := by
  simp only [Draft.areas_eq, ite_throw_eq_ok_iff, bind_eq_ok_iff, mapError_eq_ok_iff,
    pure_eq_ok_iff] at hareas
  obtain ⟨-, trie, htrie, ⟨records, pool⟩, hplace, hcount, rfl⟩ := hareas
  exact ⟨htrie, rfl, records, pool, hplace, Nat.lt_of_not_le hcount, rfl, rfl⟩

/-- The areas of a draft open as a lexicon that holds it. -/
theorem exists_stored_of_areas {draft : Draft} {areas : Areas} (hareas : draft.areas = .ok areas) :
    ∃ l, ofAreas areas = .ok l ∧ Stored draft l := by
  obtain ⟨htrie, hindex, records, pool, hplace, hcount, hrecords, hpool⟩ := areas_eq_ok hareas
  obtain ⟨t, hopen, hstores⟩ := Louds.exists_stores_of_build htrie
  obtain ⟨-, -, hdescribes⟩ := placeWords_spec Pool.holds_empty hplace
  have hlength : records.length = draft.lists.flatten.length := hdescribes.length_eq
  have hkeys : t.numKeys = draft.lists.length := by
    rw [Draft.numKeys_eq_length hstores, Draft.lists, List.length_map]
  have hindexLength : areas.index.length = t.numKeys * slotSize := by
    rw [hindex, length_flatMap_of_size Slot.length_encode, hkeys, length_slotsFrom]
  have hslots : (pieces slotSize t.numKeys areas.index).map Slot.decode =
      slotsFrom 0 draft.lists := by
    rw [hindex, hkeys]
    exact map_decode_pieces_slots (hlength ▸ hcount)
  have hbytes : areas.records.length = records.length * recordSize := by
    rw [hrecords, length_flatMap_of_size Record.length_encode]
  have hdivides : areas.records.length / recordSize = records.length := by
    rw [hbytes, Nat.mul_div_cancel _ (by decide)]
  have hwords : (pieces recordSize records.length areas.records).mapM
      (fun r ↦ (Record.decode r).word areas.pool.toArray) = .ok draft.lists.flatten := by
    rw [hrecords, hpool]
    exact mapM_word_pieces_records hdescribes
  have hbounds : (slotsFrom 0 draft.lists).any
      (fun slot ↦ records.length < slot.start + slot.count) = false := by
    rw [List.any_eq_false]
    intro slot hslot
    have hle := slot_le_of_mem hslot
    simpa [hlength] using hle
  refine ⟨⟨t, (slotsFrom 0 draft.lists).toArray, draft.lists.flatten.toArray⟩, ?_,
    ⟨hstores, rfl, rfl⟩⟩
  simp only [ofAreas, bind_eq_ok_iff, mapError_eq_ok_iff, ite_throw_eq_ok_iff, pure_eq_ok_iff]
  refine ⟨t, hopen, not_not_intro hindexLength, ?_, ?_, draft.lists.flatten, ?_, ?_⟩
  · simp [hbytes]
  · rw [hslots, hdivides, hbounds]
    exact Bool.false_ne_true
  · rw [hdivides, hwords]
  · rw [hslots]

/-! ### Searching what is stored -/

/-- Ranking is sorting by cost, with words of one cost in their order, and then erasing each word
whose surface a word before it has. -/
theorem rankWords_eq_eraseDupsBy (words : List Word) :
    rankWords words = (words.mergeSort fun a b ↦ decide (a.cost ≤ b.cost)).eraseDupsBy
      fun a b ↦ a.surface == b.surface := by
  have horder : (fun a b : Word ↦ decide (a.cost.toInt ≤ b.cost.toInt)) =
      fun a b ↦ decide (a.cost ≤ b.cost) := by
    ext a b
    rw [decide_eq_decide, Int16.le_iff_toInt_le]
  rw [rankWords, Ranking.firstOfEach_eq_eraseDupsBy, Ranking.sortOn, horder]

theorem rankWords_nil : rankWords [] = [] := by
  rw [rankWords, Ranking.sortOn, List.mergeSort_nil]
  rfl

namespace Stored

variable {draft : Draft} {l : Lexicon} (hstored : Stored draft l)

include hstored

/-- A slot leads to the words of the reading at its place. -/
theorem wordsOf_eq {id : ℕ} {reading : String} {words : List Word}
    (hid : draft.rankedByLevel[id]? = some (reading, words)) : l.wordsOf id = words := by
  have hlist : draft.lists[id]? = some words := by
    rw [Draft.lists, List.getElem?_map, hid]
    rfl
  have hslot : l.slots[id]? = some ⟨(draft.lists.take id).flatten.length, words.length⟩ := by
    rw [hstored.slots_eq, List.getElem?_toArray, getElem?_slotsFrom, hlist, Option.map_some,
      Nat.zero_add]
  rw [wordsOf, hslot, hstored.words_eq]
  simp only [List.extract_toArray, List.extract_eq_take_drop]
  rw [Nat.add_sub_cancel_left, take_drop_slotsFrom hlist]

/-- A key of the trie is an added reading, and its id leads to the words under it. -/
theorem exists_reading_of_keyId {id : ℕ} {key : Louds.Key}
    (hid : (Louds.keysByLevel draft.keys)[id]? = some key) :
    ∃ reading ∈ draft.addedReadings, key = Utf8.encode reading ∧
      l.wordsOf id = rankWords (draft.wordsUnder reading) := by
  rw [Louds.keysByLevel_eq_self draft.pairwise_keys, Draft.keys, List.getElem?_map,
    Option.map_eq_some_iff] at hid
  obtain ⟨⟨reading, words⟩, hplace, rfl⟩ := hid
  obtain ⟨hadded, hwords⟩ := (draft.mem_rankedByLevel_iff).mp (List.mem_of_getElem? hplace)
  exact ⟨reading, hadded, rfl, (hstored.wordsOf_eq hplace).trans hwords⟩

/-- A lookup gives the words added under a reading, ranked. -/
theorem lookup_eq (reading : String) :
    l.lookup reading = rankWords (draft.wordsUnder reading) := by
  by_cases hadded : reading ∈ draft.addedReadings
  · obtain ⟨node, id, hnode, hid⟩ := Louds.exists_locates (Draft.encode_mem_keys_iff.mpr hadded)
    have hmatch : l.trie.exactMatch? (Utf8.encode reading) = some node :=
      (Louds.Trie.exactMatch?_eq_some_iff hstored.trie).mpr
        ⟨hnode, Draft.encode_mem_keys_iff.mpr hadded⟩
    have hkeyId : l.trie.keyId? node = some id :=
      (Louds.Trie.keyId?_eq_some_iff hstored.trie hnode).mpr hid
    obtain ⟨other, -, hsame, hwords⟩ := hstored.exists_reading_of_keyId hid
    rw [lookup, hmatch, Option.bind_some, wordsAt?, hkeyId, Option.map_some, Option.getD_some,
      hwords, Utf8.encode_inj.mp hsame]
  · have hmatch : l.trie.exactMatch? (Utf8.encode reading) = none := by
      rw [Option.eq_none_iff_forall_not_mem]
      intro node hnode
      have hmem := ((Louds.Trie.exactMatch?_eq_some_iff hstored.trie).mp hnode).2
      exact hadded (Draft.encode_mem_keys_iff.mp hmem)
    rw [lookup, hmatch, Draft.wordsUnder_eq_nil hadded, rankWords_nil]
    rfl

/-- What a search along the trie found is an added reading with its words ranked. -/
theorem exists_finding_eq {start : Louds.Key} {located : Louds.PredictiveMatch}
    (hlocated : located ∈ l.trie.predictiveSearch start) :
    ∃ reading ∈ draft.addedReadings, located.key = Utf8.encode reading ∧
      l.finding located = ⟨reading, rankWords (draft.wordsUnder reading)⟩ := by
  have hlocates := ((Louds.Trie.mem_predictiveSearch_iff hstored.trie).mp hlocated).2
  obtain ⟨reading, hadded, hkey, hwords⟩ := hstored.exists_reading_of_keyId hlocates.keyId_eq
  exact ⟨reading, hadded, hkey, by rw [finding, hkey, Utf8.decodeLossy_encode, hwords]⟩

/-- Below the bytes of a text the readings are found that were added and that begin with it. -/
theorem mem_map_finding_iff (start : String) {found : Finding} :
    found ∈ (l.trie.predictiveSearch (Utf8.encode start)).map l.finding ↔
      found.reading ∈ draft.addedReadings ∧ start.toList <+: found.reading.toList ∧
        found.words = rankWords (draft.wordsUnder found.reading) := by
  rw [List.mem_map]
  constructor
  · rintro ⟨located, hmem, rfl⟩
    obtain ⟨reading, hadded, hkey, hfinding⟩ := hstored.exists_finding_eq hmem
    have hstart := ((Louds.Trie.mem_predictiveSearch_iff hstored.trie).mp hmem).1
    rw [hkey] at hstart
    rw [hfinding]
    exact ⟨hadded, Utf8.encode_prefix_iff.mp hstart, rfl⟩
  · rintro ⟨hadded, hstart, hwords⟩
    obtain ⟨node, id, hlocates⟩ := Louds.exists_locates (Draft.encode_mem_keys_iff.mpr hadded)
    have hmem := (Louds.Trie.mem_predictiveSearch_iff hstored.trie).mpr
      ⟨Utf8.encode_prefix_iff.mpr hstart, hlocates⟩
    obtain ⟨other, -, hsame, hfinding⟩ := hstored.exists_finding_eq hmem
    refine ⟨_, hmem, ?_⟩
    rw [hfinding, ← Utf8.encode_inj.mp hsame, ← hwords]

/-- What a search along the trie finds ascends in the bytes of the readings. -/
theorem pairwise_map_finding (start : Louds.Key) :
    ((l.trie.predictiveSearch start).map l.finding).Pairwise fun found other ↦
      Utf8.encode found.reading < Utf8.encode other.reading := by
  rw [List.pairwise_map]
  refine (Louds.Trie.pairwise_predictiveSearch hstored.trie start).imp_of_mem ?_
  intro located located' hmem hmem' hlt
  obtain ⟨reading, -, hkey, hfinding⟩ := hstored.exists_finding_eq hmem
  obtain ⟨reading', -, hkey', hfinding'⟩ := hstored.exists_finding_eq hmem'
  rw [hfinding, hfinding']
  rwa [hkey, hkey'] at hlt

/-- An enumeration finds the readings that were added, with the words that a lookup gives. -/
theorem mem_toList_iff {found : Finding} :
    found ∈ l.toList ↔ found.reading ∈ draft.addedReadings ∧
      found.words = rankWords (draft.wordsUnder found.reading) := by
  refine (hstored.mem_map_finding_iff "").trans ?_
  rw [String.toList_empty, and_iff_right List.nil_prefix]

/-- An enumeration gives the readings in ascending order of their bytes. -/
theorem pairwise_toList :
    l.toList.Pairwise fun found other ↦
      Utf8.encode found.reading < Utf8.encode other.reading :=
  hstored.pairwise_map_finding []

/-- An enumeration gives each stored reading once. -/
theorem perm_toList :
    (l.toList.map fun found ↦ (found.reading, found.words)).Perm draft.rankedByLevel := by
  have hnodup : (l.toList.map fun found ↦ (found.reading, found.words)).Nodup := by
    rw [List.nodup_iff_pairwise_ne, List.pairwise_map]
    refine hstored.pairwise_toList.imp fun {found other} hlt hsame ↦ ?_
    rw [(Prod.mk.inj hsame).1] at hlt
    exact Std.lt_irrefl hlt
  refine (List.perm_ext_iff_of_nodup hnodup draft.nodup_map_fst_rankedByLevel.of_map).mpr ?_
  rintro ⟨reading, words⟩
  rw [draft.mem_rankedByLevel_iff, List.mem_map]
  constructor
  · rintro ⟨found, hfound, heq⟩
    obtain ⟨rfl, rfl⟩ := Prod.mk.inj heq
    exact hstored.mem_toList_iff.mp hfound
  · intro hadded
    exact ⟨⟨reading, words⟩, hstored.mem_toList_iff.mpr hadded, rfl⟩

/-- A lexicon counts the words of all its readings. -/
theorem numWords_eq : l.numWords = (l.toList.flatMap Finding.words).length := by
  have hperm := hstored.perm_toList.flatMap_right Prod.snd
  rw [List.flatMap_map] at hperm
  rw [numWords, hstored.words_eq, List.size_toArray, Draft.lists, ← List.flatMap_def]
  exact hperm.length_eq.symm

/-- A lexicon counts each reading once, however often it was added. -/
theorem numReadings_eq : l.numReadings = draft.addedReadings.toFinset.card := by
  have hreadings : (draft.rankedByLevel.map Prod.fst).toFinset = draft.addedReadings.toFinset := by
    ext reading
    rw [List.mem_toFinset, List.mem_toFinset, List.mem_map]
    constructor
    · rintro ⟨⟨other, words⟩, hmem, rfl⟩
      exact (draft.mem_rankedByLevel_iff.mp hmem).1
    · intro hadded
      exact ⟨_, draft.mem_rankedByLevel_iff.mpr ⟨hadded, rfl⟩, rfl⟩
  rw [numReadings, Draft.numKeys_eq_length hstored.trie, ← hreadings,
    List.toFinset_card_of_nodup draft.nodup_map_fst_rankedByLevel, List.length_map]

end Stored

/-! ### Through a data set -/

/-- A data set that holds the four areas opens as a lexicon. -/
theorem ofBlob_eq_ofAreas {blob : DataSet.Blob} {areas : Areas} {alignment : ℕ}
    (hregions : ∀ region ∈ areas.regions alignment, blob.get? region.name = some region.data) :
    ofBlob blob = ofAreas areas := by
  simp only [Areas.regions, List.forall_mem_cons] at hregions
  obtain ⟨htrie, hindex, hrecords, hpool, -⟩ := hregions
  simp only [ofBlob, DataSet.Blob.require, htrie, hindex, hrecords, hpool, Except.mapError, bind,
    Except.bind]

/-- A lexicon is written by adding its areas as regions. -/
theorem writeTo_eq_ok {draft : Draft} {before target : DataSet.Draft} {alignment : ℕ}
    (hwritten : draft.writeTo before alignment = (target, .ok ())) :
    ∃ areas, draft.areas = .ok areas ∧
      before.addAll (areas.regions alignment) = (target, .ok ()) := by
  rw [Draft.writeTo] at hwritten
  rcases hareas : draft.areas with e | areas
  · rw [hareas] at hwritten
    exact absurd (congrArg Prod.snd hwritten) (by simp)
  rcases hadd : before.addAll (areas.regions alignment) with ⟨last, outcome⟩
  rw [hareas] at hwritten
  simp only [hadd] at hwritten
  obtain ⟨rfl, houtcome⟩ := Prod.mk.inj hwritten
  rw [mapError_eq_ok_iff] at houtcome
  exact ⟨areas, rfl, by rw [hadd, houtcome]⟩

/-- A lexicon that was written to a data set with any other regions opens again. A lookup gives the
words added under a reading, sorted by cost with words of one cost in their order, and of each
surface the first. The counts are those of distinct readings and of the words found under them, an
enumeration gives each reading added once, in ascending order of bytes and with the words that a
lookup gives, and the other regions are as they were. A blob has fewer bytes than its own eight-byte
numbers can tell, as any that memory can hold. -/
theorem writeTo_roundTrip (draft : Draft) (magic : List UInt8)
    (regions : List DataSet.Draft.Region) (alignment : ℕ) (before target : DataSet.Draft)
    (hbefore : (DataSet.Draft.empty magic).addAll regions = (before, .ok ()))
    (hwritten : draft.writeTo before alignment = (target, .ok ()))
    (hsize : target.toBytes.length < UInt64.size) :
    ∃ blob l, DataSet.Blob.ofBytes target.toBytes magic = .ok blob ∧ ofBlob blob = .ok l ∧
      (∀ reading, l.lookup reading =
        ((draft.wordsUnder reading).mergeSort fun a b ↦ decide (a.cost ≤ b.cost)).eraseDupsBy
          fun a b ↦ a.surface == b.surface) ∧
      (∀ reading, reading ∉ draft.addedReadings → l.lookup reading = []) ∧
      l.numReadings = draft.addedReadings.toFinset.card ∧
      l.numWords = (l.toList.flatMap Finding.words).length ∧
      (l.toList.Pairwise fun found other ↦
        Utf8.encode found.reading < Utf8.encode other.reading) ∧
      (∀ reading, reading ∈ l.toList.map Finding.reading ↔ reading ∈ draft.addedReadings) ∧
      (∀ found ∈ l.toList, found.words = l.lookup found.reading) ∧
      ∀ region ∈ regions, blob.get? region.name = some region.data := by
  obtain ⟨areas, hareas, hadded⟩ := writeTo_eq_ok hwritten
  have hholds := ((DataSet.Draft.holds_empty magic).addAll hbefore).addAll hadded
  obtain ⟨blob, hblob, hread⟩ := hholds.exists_blob hsize
  obtain ⟨l, hopen, hstored⟩ := exists_stored_of_areas hareas
  rw [List.nil_append] at hread
  obtain ⟨hregions, hown⟩ := List.forall_mem_append.mp hread
  refine ⟨blob, l, hblob, (ofBlob_eq_ofAreas hown).trans hopen, fun reading ↦ ?_,
    fun reading hnew ↦ ?_, hstored.numReadings_eq, hstored.numWords_eq, hstored.pairwise_toList,
    fun reading ↦ ?_, fun found hfound ↦ ?_, hregions⟩
  · rw [hstored.lookup_eq, rankWords_eq_eraseDupsBy]
  · rw [hstored.lookup_eq, Draft.wordsUnder_eq_nil hnew, rankWords_nil]
  · rw [List.mem_map]
    constructor
    · rintro ⟨found, hfound, rfl⟩
      exact (hstored.mem_toList_iff.mp hfound).1
    · intro hreading
      exact ⟨⟨reading, rankWords (draft.wordsUnder reading)⟩,
        hstored.mem_toList_iff.mpr ⟨hreading, rfl⟩, rfl⟩
  · rw [hstored.lookup_eq]
    exact (hstored.mem_toList_iff.mp hfound).2

/-- One surface under two readings, and twice under one of them. -/
def sharedSurface : Draft :=
  .ofList [("か", [⟨"蚊", 5, 1, 2⟩, ⟨"可", 3, 0, 0⟩, ⟨"蚊", 9, 9, 9⟩]), ("あ", [⟨"蚊", -7, 1, 1⟩])]

theorem rankWords_sharedSurface :
    rankWords (sharedSurface.wordsUnder "か") = [⟨"可", 3, 0, 0⟩, ⟨"蚊", 5, 1, 2⟩] ∧
      rankWords (sharedSurface.wordsUnder "あ") = [⟨"蚊", -7, 1, 1⟩] := by
  constructor <;> cbv

/-- A data set that holds another region. -/
def besideMeta : DataSet.Draft := ((DataSet.Draft.empty [0xEF]).addAll [⟨"meta", 64, [1, 2, 3]⟩]).1

/-- The shared surface reads back under both readings, and the other region as it was. -/
theorem writeTo_roundTrip_sharedSurface :
    let target := (sharedSurface.writeTo besideMeta 32).1
    (DataSet.Draft.empty [0xEF]).addAll [⟨"meta", 64, [1, 2, 3]⟩] = (besideMeta, .ok ()) ∧
      sharedSurface.writeTo besideMeta 32 = (target, .ok ()) ∧
      target.toBytes.length < UInt64.size ∧
      ∃ blob l, DataSet.Blob.ofBytes target.toBytes [0xEF] = .ok blob ∧ ofBlob blob = .ok l ∧
        l.lookup "か" = [⟨"可", 3, 0, 0⟩, ⟨"蚊", 5, 1, 2⟩] ∧ l.lookup "あ" = [⟨"蚊", -7, 1, 1⟩] ∧
        blob.get? "meta" = some [1, 2, 3] := by
  have hbefore : (DataSet.Draft.empty [0xEF]).addAll [⟨"meta", 64, [1, 2, 3]⟩] =
      (besideMeta, .ok ()) := Prod.ext rfl (by cbv)
  have hwritten : sharedSurface.writeTo besideMeta 32 =
      ((sharedSurface.writeTo besideMeta 32).1, .ok ()) := Prod.ext rfl (by cbv)
  have hlengths : ((sharedSurface.writeTo besideMeta 32).1.image.length, (DataSet.encodeDirectory
      (sharedSurface.writeTo besideMeta 32).1.entries).length) = (102, 176) := by cbv
  have hsize : (sharedSurface.writeTo besideMeta 32).1.toBytes.length < UInt64.size := by
    rw [DataSet.Draft.length_toBytes, DataSet.Draft.length_checked, DataSet.Draft.length_body,
      (Prod.mk.inj hlengths).1, (Prod.mk.inj hlengths).2]
    decide
  obtain ⟨blob, l, hblob, hopen, hlookup, -, -, -, -, -, -, hregions⟩ :=
    writeTo_roundTrip sharedSurface [0xEF] _ 32 besideMeta _ hbefore hwritten hsize
  refine ⟨hbefore, hwritten, hsize, blob, l, hblob, hopen, ?_, ?_, ?_⟩
  · rw [hlookup, ← rankWords_eq_eraseDupsBy, rankWords_sharedSurface.1]
  · rw [hlookup, ← rankWords_eq_eraseDupsBy, rankWords_sharedSurface.2]
  · exact hregions _ List.mem_cons_self

end Lexicon

end KanaKanji
