import Mathlib
import KanaKanji.Proofs.Lexicon.StoredReadings
import KanaKanji.Proofs.Louds.MatchCursor

/-!
# Searches that agree with the lookup

A prediction walks down from a node of the trie, a search along a text stops at each key it passes,
and a lookup follows one reading. Each of them finds the slot of a reading in its own way. All the
same they agree: a search gives some of the readings of the draft, in ascending order, each with the
words that a lookup gives (`Lexicon.answer`). So a search is told by the readings that it picks
(`Draft.eq_map_answer`), and two facts about it are enough for that: which readings it finds, and
that they ascend.

A prediction picks the readings that begin with the text (`Stored.predict_eq`). A search along a
text picks those that the text begins with (`Stored.commonPrefixSearch_eq`); they come by size, and
of two front parts of one text the shorter one is the lesser (`encode_lt_of_byteLength_lt`). Every
match in the trie gives a reading, as a key of the trie is the bytes of a text
(`Stored.map_byteLength_commonPrefixSearch`).
-/

set_option autoImplicit false

namespace KanaKanji

/-- Of two front parts of one text the shorter one is the lesser. -/
theorem Utf8.encode_lt_of_byteLength_lt {a b query : String} (ha : a.toList <+: query.toList)
    (hb : b.toList <+: query.toList) (hlt : byteLength a < byteLength b) :
    encode a < encode b := by
  rw [← length_encode, ← length_encode] at hlt
  have hprefix : encode a <+: encode b :=
    List.prefix_of_prefix_length_le (encode_prefix_iff.mpr ha) (encode_prefix_iff.mpr hb) hlt.le
  have hne : encode a ≠ encode b := fun hsame ↦ hlt.ne (congrArg List.length hsame)
  exact Std.lt_of_le_of_ne hprefix.le hne

namespace Lexicon

/-! ### Answers -/

/-- A reading with the words that a lookup gives. -/
def answer (l : Lexicon) (reading : String) : Finding := ⟨reading, l.lookup reading⟩

namespace Draft

variable (draft : Draft)

/-- The readings added to a draft, each once and in ascending order. -/
def distinctReadings : List String := draft.readings.map Prod.fst

theorem mem_distinctReadings_iff {reading : String} :
    reading ∈ draft.distinctReadings ↔ reading ∈ draft.addedReadings := by
  rw [distinctReadings, List.mem_map]
  constructor
  · rintro ⟨⟨other, words⟩, hmem, rfl⟩
    exact (draft.mem_readings_iff.mp hmem).1
  · intro hadded
    exact ⟨_, draft.mem_readings_iff.mpr ⟨hadded, rfl⟩, rfl⟩

theorem pairwise_distinctReadings :
    draft.distinctReadings.Pairwise fun a b ↦ Utf8.encode a < Utf8.encode b :=
  List.pairwise_map.mpr (draft.pairwise_readings.imp Utf8.encode_lt_encode_iff.mpr)

variable {draft} {l : Lexicon}

/-- Findings that ascend are the answers for the readings among them. -/
theorem eq_map_answer (picks : String → Bool) {findings : List Finding}
    (hmem : ∀ found, found ∈ findings ↔ found.reading ∈ draft.addedReadings ∧
      picks found.reading ∧ found.words = l.lookup found.reading)
    (horder : findings.Pairwise fun found other ↦
      Utf8.encode found.reading < Utf8.encode other.reading) :
    findings = (draft.distinctReadings.filter picks).map l.answer := by
  have hanswers : findings = (findings.map (·.reading)).map l.answer := by
    rw [List.map_map]
    refine (List.map_id findings).symm.trans (List.map_congr_left fun found hfound ↦ ?_)
    rw [Function.comp_apply, answer, ← ((hmem found).mp hfound).2.2]
    rfl
  -- Both sides ascend strictly, so they are equal if they have the same members.
  have hreadings : findings.map (·.reading) = draft.distinctReadings.filter picks := by
    refine List.Pairwise.eq_of_mem_iff (r := (· < ·)) ?_ ?_ fun reading ↦ ?_
    · exact List.pairwise_map.mpr (horder.imp Utf8.encode_lt_encode_iff.mp)
    · exact (draft.pairwise_distinctReadings.imp Utf8.encode_lt_encode_iff.mp).filter picks
    · rw [List.mem_map, List.mem_filter, draft.mem_distinctReadings_iff]
      constructor
      · rintro ⟨found, hfound, rfl⟩
        obtain ⟨hadded, hpicked, -⟩ := (hmem found).mp hfound
        exact ⟨hadded, hpicked⟩
      · rintro ⟨hadded, hpicked⟩
        exact ⟨l.answer reading, (hmem _).mpr ⟨hadded, hpicked, rfl⟩, rfl⟩
  rw [hanswers, hreadings]

end Draft

/-! ### Searches -/

namespace Stored

variable {draft : Draft} {l : Lexicon} (hstored : Stored draft l)

include hstored

/-- An enumeration gives an answer for each reading of the draft. -/
theorem toList_eq : l.toList = draft.distinctReadings.map l.answer := by
  rw [Draft.eq_map_answer (fun _ ↦ true) (fun found ↦ ?_) hstored.pairwise_toList,
    List.filter_true]
  rw [hstored.mem_toList_iff, hstored.lookup_eq, and_iff_right rfl]

/-- A prediction gives an answer for each of the first readings that begin with the text. -/
theorem predict_eq (start : String) (limit : ℕ) :
    l.predict start limit =
      ((draft.distinctReadings.filter (start.toList.isPrefixOf ·.toList)).take limit).map
        l.answer := by
  rw [predict, List.map_take, List.map_take,
    Draft.eq_map_answer (start.toList.isPrefixOf ·.toList) (fun found ↦ ?_)
      (hstored.pairwise_map_finding _)]
  rw [hstored.mem_map_finding_iff, hstored.lookup_eq, List.isPrefixOf_iff_prefix]

/-- Along a text there is a reading for each match in the trie, as long as the match. -/
theorem map_byteLength_commonPrefixSearch (query : String) :
    (l.commonPrefixSearch query).map (Utf8.byteLength ·.reading) =
      (l.trie.commonPrefixSearch (Utf8.encode query)).map (·.length) := by
  rw [commonPrefixSearch, List.map_filterMap, ← List.filterMap_eq_map]
  refine List.filterMap_congr fun found hfound ↦ ?_
  have hle := (Louds.Trie.mem_commonPrefixSearch_iff.mp hfound).2.1
  have hnode := (Louds.Trie.exactMatch?_of_mem_commonPrefixSearch hstored.trie hfound).1
  have hkey := ((Louds.Trie.exactMatch?_eq_some_iff hstored.trie).mp hnode).2
  obtain ⟨⟨reading, words⟩, -, hbytes⟩ := List.mem_map.mp hkey
  have hsize : Utf8.byteLength reading = found.length := by
    rw [← Utf8.length_encode]
    exact (congrArg List.length hbytes).trans (List.length_take_of_le hle)
  rw [← hbytes, Utf8.decode?_encode, Option.map_some, Option.map_some, hsize, Function.comp_apply]

/-- The readings found along a text ascend by size. -/
theorem pairwise_commonPrefixSearch (query : String) :
    (l.commonPrefixSearch query).Pairwise fun found other ↦
      Utf8.byteLength found.reading < Utf8.byteLength other.reading := by
  have hsizes : ((l.commonPrefixSearch query).map (Utf8.byteLength ·.reading)).Pairwise
      (· < ·) := by
    rw [hstored.map_byteLength_commonPrefixSearch,
      Louds.Trie.map_length_commonPrefixSearch hstored.trie]
    exact (List.pairwise_lt_range' 1).filter _
  exact List.pairwise_map.mp hsizes

/-- A search along a text gives an answer for each reading that the text begins with. -/
theorem commonPrefixSearch_eq (hempty : "" ∉ draft.addedReadings) (query : String) :
    l.commonPrefixSearch query =
      (draft.distinctReadings.filter (·.toList.isPrefixOf query.toList)).map l.answer := by
  have hmem : ∀ found, found ∈ l.commonPrefixSearch query ↔
      found.reading ∈ draft.addedReadings ∧ found.reading.toList.isPrefixOf query.toList ∧
        found.words = l.lookup found.reading := by
    intro found
    rw [mem_commonPrefixSearch_iff, hstored.bind_wordsAt?_eq_some_iff, Utf8.encode_prefix_iff,
      List.isPrefixOf_iff_prefix]
    constructor
    · rintro ⟨-, hfront, hadded, hwords⟩
      exact ⟨hadded, hfront, hwords⟩
    · rintro ⟨hadded, hfront, hwords⟩
      exact ⟨fun hsame ↦ hempty (hsame ▸ hadded), hfront, hadded, hwords⟩
  refine Draft.eq_map_answer _ hmem ((hstored.pairwise_commonPrefixSearch query).imp_of_mem ?_)
  intro found other hfound hother hlt
  exact Utf8.encode_lt_of_byteLength_lt (List.isPrefixOf_iff_prefix.mp ((hmem _).mp hfound).2.1)
    (List.isPrefixOf_iff_prefix.mp ((hmem _).mp hother).2.1) hlt

end Stored

/-- A lexicon that was written to a data set with any other regions, and opened again, answers
everywhere from the readings added, each once and in ascending order of bytes. An enumeration gives
all of them, a prediction the first that begin with a text, and a search along a text those that the
text begins with, the shorter ones first and one for each match in the trie. Each of them stands as
it was added, with the words that a lookup gives. -/
theorem searches_agree_of_writeTo (draft : Draft) (magic : List UInt8)
    (regions : List DataSet.Draft.Region) (alignment : ℕ) (before target : DataSet.Draft)
    (hbefore : (DataSet.Draft.empty magic).addAll regions = (before, .ok ()))
    (hwritten : draft.writeTo before alignment = (target, .ok ()))
    (hsize : target.toBytes.length < UInt64.size) :
    ∃ blob l, DataSet.Blob.ofBytes target.toBytes magic = .ok blob ∧ ofBlob blob = .ok l ∧
      (∀ reading, reading ∈ draft.distinctReadings ↔ reading ∈ draft.addedReadings) ∧
      (draft.distinctReadings.Pairwise fun a b ↦ Utf8.encode a < Utf8.encode b) ∧
      l.toList = draft.distinctReadings.map l.answer ∧
      (∀ start limit, l.predict start limit =
        ((draft.distinctReadings.filter (start.toList.isPrefixOf ·.toList)).take limit).map
          l.answer) ∧
      ∀ query : String,
        l.commonPrefixSearch query =
          (draft.distinctReadings.filter (·.toList.isPrefixOf query.toList)).map l.answer ∧
        ((l.commonPrefixSearch query).Pairwise fun found other ↦
          Utf8.byteLength found.reading < Utf8.byteLength other.reading) ∧
        (l.commonPrefixSearch query).map (Utf8.byteLength ·.reading) =
          (l.trie.commonPrefixSearch (Utf8.encode query)).map (·.length) := by
  obtain ⟨blob, l, hblob, hopen, hstored, hempty⟩ :=
    exists_stored_of_writeTo hbefore hwritten hsize
  exact ⟨blob, l, hblob, hopen, fun _ ↦ draft.mem_distinctReadings_iff,
    draft.pairwise_distinctReadings, hstored.toList_eq, hstored.predict_eq, fun query ↦
      ⟨hstored.commonPrefixSearch_eq hempty query, hstored.pairwise_commonPrefixSearch query,
        hstored.map_byteLength_commonPrefixSearch query⟩⟩

/-- Of `か`, `かき` and `がき` the first two begin with `か`, and `かきが` begins with them. -/
theorem searches_agree_of_writeTo_voiced :
    (DataSet.Draft.empty [0xEF]).addAll [] = (.empty [0xEF], .ok ()) ∧
      voicedReadings.writeTo (.empty [0xEF]) 32 = (voicedTarget, .ok ()) ∧
      voicedTarget.toBytes.length < UInt64.size ∧
      ∃ blob l, DataSet.Blob.ofBytes voicedTarget.toBytes [0xEF] = .ok blob ∧
        ofBlob blob = .ok l ∧
        l.predict "か" 1 = [l.answer "か"] ∧
        l.predict "か" 5 = [l.answer "か", l.answer "かき"] ∧
        l.commonPrefixSearch "かきが" = [l.answer "か", l.answer "かき"] := by
  obtain ⟨hwritten, hsize⟩ := writeTo_voicedReadings
  obtain ⟨blob, l, hblob, hopen, -, -, -, hpredict, hsearch⟩ :=
    searches_agree_of_writeTo voicedReadings [0xEF] [] 32 _ _ rfl hwritten hsize
  have hreadings : voicedReadings.distinctReadings = ["か", "かき", "がき"] := by cbv
  refine ⟨rfl, hwritten, hsize, blob, l, hblob, hopen, ?_, ?_, ?_⟩
  · rw [hpredict, hreadings]
    rfl
  · rw [hpredict, hreadings]
    rfl
  · rw [(hsearch "かきが").1, hreadings]
    rfl

end Lexicon

end KanaKanji
