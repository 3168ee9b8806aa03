import Mathlib
import KanaKanji.Proofs.Lexicon.Gathering
import KanaKanji.Proofs.Louds.CanonicalForm
import KanaKanji.Proofs.Louds.Enumeration

/-!
# Word lists at the places of their readings

A draft hands its readings to a trie in ascending order, opens the trie that was built, and asks it
for the id of each reading to know where the slot of the reading belongs
(`Draft.placeWordLists`). The trie does not depend on the order in which it got the readings
(`build_readings`), and it numbers them level by level (`keyId?_reading`). So each reading is found,
each place gets the words of one reading, and the lists come to stand as in `Draft.rankedByLevel`
(`placeWordLists_readings`).

The areas of a draft are thus made of its readings level by level (`areas_eq`).
-/

set_option autoImplicit false

namespace KanaKanji.Lexicon

namespace Draft

variable {draft : Draft} {t : Louds.Trie}

/-! ### The trie of the readings -/

/-- The keys of the trie are the bytes of the readings added. -/
theorem encode_mem_keys_iff {reading : String} :
    Utf8.encode reading ∈ draft.keys ↔ reading ∈ draft.addedReadings := by
  rw [keys, List.mem_map]
  constructor
  · rintro ⟨⟨other, words⟩, hmem, hsame⟩
    rw [← Utf8.encode_inj.mp hsame]
    exact (draft.mem_rankedByLevel_iff.mp hmem).1
  · intro hadded
    exact ⟨_, draft.mem_rankedByLevel_iff.mpr ⟨hadded, rfl⟩, rfl⟩

/-- For the trie it makes no difference that it gets the readings in ascending order. -/
theorem build_readings (draft : Draft) :
    Louds.build (draft.readings.map (Utf8.encode ·.1)) = Louds.build draft.keys := by
  refine Louds.build_congr fun key ↦ ?_
  rw [keys, List.mem_map, List.mem_map]
  constructor
  · rintro ⟨⟨reading, words⟩, hmem, rfl⟩
    have hadded := (draft.mem_readings_iff.mp hmem).1
    exact ⟨_, draft.mem_rankedByLevel_iff.mpr ⟨hadded, rfl⟩, rfl⟩
  · rintro ⟨⟨reading, words⟩, hmem, rfl⟩
    have hadded := (draft.mem_rankedByLevel_iff.mp hmem).1
    exact ⟨_, draft.mem_readings_iff.mpr ⟨hadded, rfl⟩, rfl⟩

theorem numKeys_eq_length (hstores : t.Stores draft.keys) :
    t.numKeys = draft.rankedByLevel.length := by
  rw [Louds.Trie.numKeys_eq_length hstores,
    Louds.keysByLevel_eq_self draft.pairwise_keys, keys, List.length_map]

/-- The id that the trie has for a reading is the place of the reading, level by level. -/
theorem keyId?_reading (hstores : t.Stores draft.keys) {reading : String}
    (hadded : reading ∈ draft.addedReadings) {id : ℕ} :
    (t.exactMatch? (Utf8.encode reading)).bind t.keyId? = some id ↔
      draft.keys[id]? = some (Utf8.encode reading) := by
  have hkey := encode_mem_keys_iff.mpr hadded
  obtain ⟨node, _, hnode, -⟩ := Louds.exists_locates hkey
  rw [(Louds.Trie.exactMatch?_eq_some_iff hstores).mpr ⟨hnode, hkey⟩, Option.bind_some,
    Louds.Trie.keyId?_eq_some_iff hstores hnode, Louds.keysByLevel_eq_self draft.pairwise_keys]

/-! ### Placing -/

/-- The lists are placed as in a target if each of them stands there at the id of its reading, and
the places that differ from the target are ids of readings still to come. The induction is on the
readings. -/
theorem placeWordLists_eq_ok {entries : List (String × List Word)}
    {placed target : List (Option (List Word))} (hlength : placed.length = target.length)
    (hids : ∀ entry ∈ entries, ∃ id,
      (t.exactMatch? (Utf8.encode entry.1)).bind t.keyId? = some id ∧
        target[id]? = some (some (rankWords entry.2)))
    (hrest : ∀ id, placed[id]? = target[id]? ∨ ∃ entry ∈ entries,
      (t.exactMatch? (Utf8.encode entry.1)).bind t.keyId? = some id) :
    placeWordLists t placed entries = .ok target := by
  induction entries generalizing placed with
  | nil =>
    have hsame : placed = target := List.ext_getElem? fun id ↦
      (hrest id).resolve_right fun ⟨entry, hmem, _⟩ ↦ List.not_mem_nil hmem
    rw [placeWordLists, hsame]
  | cons entry entries ih =>
    obtain ⟨reading, words⟩ := entry
    obtain ⟨⟨id, hid, htarget⟩, hothers⟩ := List.forall_mem_cons.mp hids
    have hlt : id < placed.length := hlength ▸ (List.getElem?_eq_some_iff.mp htarget).1
    rw [placeWordLists, hid]
    refine ih (by rw [List.length_set, hlength]) hothers fun other ↦ ?_
    by_cases hsame : id = other
    · subst hsame
      rw [List.getElem?_set_self hlt, htarget]
      exact .inl rfl
    rw [List.getElem?_set_ne hsame]
    rcases hrest other with hplaced | ⟨entry, hmem, hother⟩
    · exact .inl hplaced
    rcases List.mem_cons.mp hmem with rfl | hmem
    · exact absurd (Option.some.inj (hid.symm.trans hother)) hsame
    · exact .inr ⟨entry, hmem, hother⟩

/-- Each reading is found in the trie, and the lists of words stand level by level then, without a
gap. -/
theorem placeWordLists_readings (hstores : t.Stores draft.keys) :
    placeWordLists t (.replicate t.numKeys none) draft.readings = .ok (draft.lists.map some) := by
  have hsize : t.numKeys = draft.rankedByLevel.length := numKeys_eq_length hstores
  refine placeWordLists_eq_ok ?_ ?_ fun id ↦ ?_
  · rw [List.length_replicate, List.length_map, lists, List.length_map, hsize]
  · rintro ⟨reading, words⟩ hmem
    obtain ⟨hadded, rfl⟩ := draft.mem_readings_iff.mp hmem
    obtain ⟨id, hid⟩ := List.getElem?_of_mem (draft.mem_rankedByLevel_iff.mpr ⟨hadded, rfl⟩)
    refine ⟨id, (keyId?_reading hstores hadded).mpr ?_, ?_⟩
    · rw [keys, List.getElem?_map, hid, Option.map_some]
    · rw [lists, List.getElem?_map, List.getElem?_map, hid, Option.map_some, Option.map_some]
  · rcases hid : draft.rankedByLevel[id]? with _ | ⟨reading, words⟩
    · have hpast := List.getElem?_eq_none_iff.mp hid
      rw [lists, List.getElem?_map, List.getElem?_map, hid, List.getElem?_eq_none]
      · exact .inl rfl
      · rwa [List.length_replicate, hsize]
    · have hadded := (draft.mem_rankedByLevel_iff.mp (List.mem_of_getElem? hid)).1
      refine .inr ⟨(reading, draft.wordsUnder reading),
        draft.mem_readings_iff.mpr ⟨hadded, rfl⟩, (keyId?_reading hstores hadded).mpr ?_⟩
      rw [keys, List.getElem?_map, hid, Option.map_some]

/-- Once the trie of the readings is built, it opens, and no reading is missing from it. -/
theorem exists_placeWordLists_of_build {image : List UInt8}
    (hbuild : Louds.build (draft.readings.map (Utf8.encode ·.1)) = .ok image) :
    ∃ t, Louds.Trie.ofBytes image = .ok t ∧ t.Stores draft.keys ∧
      placeWordLists t (.replicate t.numKeys none) draft.readings =
        .ok (draft.lists.map some) := by
  rw [build_readings] at hbuild
  obtain ⟨t, hopen, hstores⟩ := Louds.exists_stores_of_build hbuild
  exact ⟨t, hopen, hstores, placeWordLists_readings hstores⟩

/-- The areas are those of the readings level by level, and they cannot be made only if a reading is
empty, the trie is too large, or the words do not fit. -/
theorem areas_eq (draft : Draft) :
    draft.areas = do
      if draft.readings.any (·.1.isEmpty) then throw .emptyReading
      let image ← (Louds.build draft.keys).mapError .trie
      let (records, pool) ← placeWords .empty draft.lists.flatten
      if UInt32.size ≤ records.length then throw .tooManyWords
      return {
        trie := image
        index := (slotsFrom 0 draft.lists).flatMap Slot.encode
        records := records.flatMap Record.encode
        pool := pool.toBytes } := by
  have hlists : (draft.lists.map some).map (·.getD []) = draft.lists := by
    rw [List.map_map]
    exact List.map_id _
  rw [areas]
  rcases hbuild : Louds.build (draft.readings.map (Utf8.encode ·.1)) with e | image
  · rw [← build_readings, hbuild]
    rfl
  · obtain ⟨t, hopen, -, hplaced⟩ := exists_placeWordLists_of_build hbuild
    rw [← build_readings, hbuild]
    dsimp only [Except.mapError, bind, Except.bind]
    rw [hopen]
    dsimp only
    rw [hplaced]
    dsimp only
    rw [hlists]

end Draft

end KanaKanji.Lexicon
