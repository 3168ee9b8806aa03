import Mathlib
import KanaKanji.Proofs.Lexicon.RoundTrip
import KanaKanji.Proofs.Lexicon.Variants

/-!
# Stored readings that a text begins with

A draft that was written to a data set opens again as a lexicon that holds it
(`exists_stored_of_writeTo`). Its trie leads along a reading to a key just if the reading was added,
and the key has the words that a lookup gives (`Stored.bind_wordsAt?_eq_some_iff`). So what the two
searches for readings at the beginning of a text find can be told from the readings that were added
(`Stored.findsSize_commonPrefixSearch_iff`, `Stored.findsSize_modifierInsensitiveSearch_iff`).

`modifierInsensitiveSearch_of_writeTo` says all of the search that ignores modifiers. What is
predicted for a text begins with it (`Stored.isPrefix_of_mem_predict`).
-/

set_option autoImplicit false

namespace KanaKanji

namespace Lexicon

open Outcomes

/-! ### Opening what was written -/

/-- No draft with an empty reading is stored. -/
theorem empty_notMem_addedReadings {draft : Draft} {areas : Areas}
    (hareas : draft.areas = .ok areas) : "" ∉ draft.addedReadings := by
  simp only [Draft.areas_eq, ite_throw_eq_ok_iff] at hareas
  intro hadded
  refine hareas.1 (List.any_eq_true.mpr ⟨_, draft.mem_readings_iff.mpr ⟨hadded, rfl⟩, ?_⟩)
  rfl

/-- What was written to a data set, with any regions before it, opens as a lexicon that holds the
draft. -/
theorem exists_stored_of_writeTo {draft : Draft} {magic : List UInt8}
    {regions : List DataSet.Draft.Region} {alignment : ℕ} {before target : DataSet.Draft}
    (hbefore : (DataSet.Draft.empty magic).addAll regions = (before, .ok ()))
    (hwritten : draft.writeTo before alignment = (target, .ok ()))
    (hsize : target.toBytes.length < UInt64.size) :
    ∃ blob l, DataSet.Blob.ofBytes target.toBytes magic = .ok blob ∧ ofBlob blob = .ok l ∧
      Stored draft l ∧ "" ∉ draft.addedReadings := by
  obtain ⟨areas, hareas, hadded⟩ := writeTo_eq_ok hwritten
  have hholds := ((DataSet.Draft.holds_empty magic).addAll hbefore).addAll hadded
  obtain ⟨blob, hblob, hread⟩ := hholds.exists_blob hsize
  obtain ⟨l, hopen, hstored⟩ := exists_stored_of_areas hareas
  rw [List.nil_append] at hread
  exact ⟨blob, l, hblob, (ofBlob_eq_ofAreas (List.forall_mem_append.mp hread).2).trans hopen,
    hstored, empty_notMem_addedReadings hareas⟩

/-! ### Searching what is stored -/

namespace Stored

variable {draft : Draft} {l : Lexicon} (hstored : Stored draft l)

include hstored

/-- The trie leads along a reading to words just if it was added, and to those that a lookup
gives. -/
theorem bind_wordsAt?_eq_some_iff {reading : String} {words : List Word} :
    (l.trie.traverse? (Utf8.encode reading)).bind l.wordsAt? = some words ↔
      reading ∈ draft.addedReadings ∧ words = l.lookup reading := by
  constructor
  · intro hwords
    obtain ⟨node, hnode, hwordsAt⟩ := Option.bind_eq_some_iff.mp hwords
    obtain ⟨id, hid, rfl⟩ := Option.map_eq_some_iff.mp hwordsAt
    have hpath := (Louds.Trie.traverse?_eq_some_iff hstored.trie).mp hnode
    obtain ⟨other, hadded, hsame, hfound⟩ := hstored.exists_reading_of_keyId
      ((Louds.Trie.keyId?_eq_some_iff hstored.trie hpath).mp hid)
    obtain rfl := Utf8.encode_inj.mp hsame
    exact ⟨hadded, by rw [hfound, hstored.lookup_eq]⟩
  · rintro ⟨hadded, rfl⟩
    obtain ⟨node, id, hnode, hid⟩ := Louds.exists_locates (Draft.encode_mem_keys_iff.mpr hadded)
    obtain ⟨other, -, hsame, hfound⟩ := hstored.exists_reading_of_keyId hid
    obtain rfl := Utf8.encode_inj.mp hsame
    rw [(Louds.Trie.traverse?_eq_some_iff hstored.trie).mpr hnode, Option.bind_some, wordsAt?,
      (Louds.Trie.keyId?_eq_some_iff hstored.trie hnode).mpr hid, Option.map_some, hfound,
      hstored.lookup_eq]

theorem isSome_bind_wordsAt?_iff {spelled : List Char} :
    ((l.trie.traverse? (Utf8.encodeChars spelled)).bind l.wordsAt?).isSome ↔
      String.ofList spelled ∈ draft.addedReadings := by
  simp only [Option.isSome_iff_exists, ← Utf8.encode_ofList, hstored.bind_wordsAt?_eq_some_iff]
  exact ⟨fun ⟨_, hadded, _⟩ ↦ hadded, fun hadded ↦ ⟨_, hadded, rfl⟩⟩

/-- A reading with the size of a front part is found just if that part was added. -/
theorem findsSize_commonPrefixSearch_iff (front back : List Char) :
    FindsSize (l.commonPrefixSearch (String.ofList (front ++ back))) (Text.byteCount front) ↔
      front ≠ [] ∧ ∃ reading ∈ draft.addedReadings, reading.toList = front := by
  rw [Lexicon.findsSize_commonPrefixSearch_iff, hstored.isSome_bind_wordsAt?_iff]
  refine and_congr_right fun _ ↦ ⟨fun hadded ↦ ⟨_, hadded, String.toList_ofList⟩, ?_⟩
  rintro ⟨reading, hadded, rfl⟩
  rwa [String.ofList_toList]

/-- When modifiers are ignored, it is found just if one that agrees with that part was added. -/
theorem findsSize_modifierInsensitiveSearch_iff (front back : List Char) :
    FindsSize (l.modifierInsensitiveSearch (String.ofList (front ++ back)))
        (Text.byteCount front) ↔
      front ≠ [] ∧ ∃ reading ∈ draft.addedReadings,
        List.Forall₂ Modifier.Agree reading.toList front := by
  rw [Lexicon.findsSize_modifierInsensitiveSearch_iff]
  simp only [hstored.isSome_bind_wordsAt?_iff, Modifier.spells_iff_forall₂_agree]
  refine and_congr_right fun _ ↦ ⟨?_, ?_⟩
  · rintro ⟨spelled, hagree, hadded⟩
    exact ⟨_, hadded, by rwa [String.toList_ofList]⟩
  · rintro ⟨reading, hadded, hagree⟩
    exact ⟨reading.toList, hagree, by rwa [String.ofList_toList]⟩

/-- A search that ignores modifiers finds the readings added that agree with a front part of the
text, with the words that a lookup gives. -/
theorem mem_modifierInsensitiveSearch_iff {query : String} {found : Finding} :
    found ∈ l.modifierInsensitiveSearch query ↔
      found.reading ≠ "" ∧
        (∃ front, front <+: query.toList ∧
          List.Forall₂ Modifier.Agree found.reading.toList front) ∧
        found.reading ∈ draft.addedReadings ∧ found.words = l.lookup found.reading := by
  simp only [Lexicon.mem_modifierInsensitiveSearch_iff, Modifier.spells_iff_forall₂_agree,
    hstored.bind_wordsAt?_eq_some_iff]

/-- A prediction finds readings that were added and that begin with the text. -/
theorem isPrefix_of_mem_predict {start : String} {limit : ℕ} {found : Finding}
    (hmem : found ∈ l.predict start limit) :
    found.reading ∈ draft.addedReadings ∧ start.toList <+: found.reading.toList := by
  rw [predict, List.map_take] at hmem
  obtain ⟨hadded, hstart, -⟩ := (hstored.mem_map_finding_iff start).mp (List.mem_of_mem_take hmem)
  exact ⟨hadded, hstart⟩

/-- Without an empty reading the front part is not empty either. -/
theorem mem_map_reading_modifierInsensitiveSearch_iff (hempty : "" ∉ draft.addedReadings)
    {query reading : String} :
    reading ∈ (l.modifierInsensitiveSearch query).map (·.reading) ↔
      reading ∈ draft.addedReadings ∧ ∃ front, front <+: query.toList ∧ front ≠ [] ∧
        List.Forall₂ Modifier.Agree reading.toList front := by
  rw [List.mem_map]
  constructor
  · rintro ⟨found, hfound, rfl⟩
    obtain ⟨hne, ⟨front, hfront, hagree⟩, hadded, -⟩ :=
      hstored.mem_modifierInsensitiveSearch_iff.mp hfound
    refine ⟨hadded, front, hfront, ?_, hagree⟩
    rintro rfl
    exact hne (String.toList_eq_nil_iff.mp (List.forall₂_nil_right_iff.mp hagree))
  · rintro ⟨hadded, front, hfront, -, hagree⟩
    have hne : reading ≠ "" := fun heq ↦ hempty (heq ▸ hadded)
    exact ⟨⟨reading, l.lookup reading⟩, hstored.mem_modifierInsensitiveSearch_iff.mpr
      ⟨hne, ⟨front, hfront, hagree⟩, hadded, rfl⟩, rfl⟩

end Stored

/-- A lexicon that was written to a data set with any other regions, and opened again, finds for a
text exactly the readings added that agree up to modifiers, character by character, with a front
part of the text. Each of them is found once, has the words that a lookup gives and is as long as
that front part. They ascend by size, and among those of one size the first is the reading that the
text begins with as it is, if that was added. So texts that differ only by modifiers find the
same. -/
theorem modifierInsensitiveSearch_of_writeTo (draft : Draft) (magic : List UInt8)
    (regions : List DataSet.Draft.Region) (alignment : ℕ) (before target : DataSet.Draft)
    (hbefore : (DataSet.Draft.empty magic).addAll regions = (before, .ok ()))
    (hwritten : draft.writeTo before alignment = (target, .ok ()))
    (hsize : target.toBytes.length < UInt64.size) :
    ∃ blob l, DataSet.Blob.ofBytes target.toBytes magic = .ok blob ∧ ofBlob blob = .ok l ∧
      (∀ query : String,
        (∀ reading, reading ∈ (l.modifierInsensitiveSearch query).map (·.reading) ↔
          reading ∈ draft.addedReadings ∧ ∃ front, front <+: query.toList ∧ front ≠ [] ∧
            List.Forall₂ Modifier.Agree reading.toList front) ∧
        ((l.modifierInsensitiveSearch query).map (·.reading)).Nodup ∧
        (∀ found ∈ l.modifierInsensitiveSearch query, found.words = l.lookup found.reading ∧
          ∀ front, front <+: query.toList →
            List.Forall₂ Modifier.Agree found.reading.toList front →
              Utf8.byteLength found.reading = Utf8.byteLength (String.ofList front)) ∧
        (l.modifierInsensitiveSearch query).Pairwise fun found other ↦
          Utf8.byteLength found.reading ≤ Utf8.byteLength other.reading ∧
            (Utf8.byteLength found.reading = Utf8.byteLength other.reading →
              ¬ other.reading.toList <+: query.toList)) ∧
      ∀ query query' : String, List.Forall₂ Modifier.Agree query.toList query'.toList →
        ∀ found, found ∈ l.modifierInsensitiveSearch query ↔
          found ∈ l.modifierInsensitiveSearch query' := by
  obtain ⟨blob, l, hblob, hopen, hstored, hempty⟩ :=
    exists_stored_of_writeTo hbefore hwritten hsize
  refine ⟨blob, l, hblob, hopen, fun query ↦
    ⟨fun reading ↦ hstored.mem_map_reading_modifierInsensitiveSearch_iff hempty,
      nodup_modifierInsensitiveSearch query, fun found hfound ↦ ⟨?_, fun front hfront hagree ↦ ?_⟩,
      pairwise_modifierInsensitiveSearch query⟩,
    fun query query' hsame found ↦ mem_modifierInsensitiveSearch_congr hsame⟩
  · exact (hstored.mem_modifierInsensitiveSearch_iff.mp hfound).2.2.2
  · rw [Utf8.byteLength_ofList, ← (Modifier.spells_iff_forall₂_agree.mpr hagree).byteCount_eq,
      ← Utf8.byteLength_ofList, String.ofList_toList]

/-- Readings of which two differ by a voicing mark only. -/
def voicedReadings : Draft :=
  .ofList [("かき", [⟨"柿", 1, 0, 0⟩]), ("がき", [⟨"餓鬼", 2, 0, 0⟩]), ("か", [⟨"蚊", 3, 0, 0⟩])]

/-- The data set that they are written to. -/
def voicedTarget : DataSet.Draft := (voicedReadings.writeTo (.empty [0xEF]) 32).1

theorem writeTo_voicedReadings :
    voicedReadings.writeTo (.empty [0xEF]) 32 = (voicedTarget, .ok ()) ∧
      voicedTarget.toBytes.length < UInt64.size := by
  have hrun : ((voicedReadings.writeTo (.empty [0xEF]) 32).2, voicedTarget.image.length,
      (DataSet.encodeDirectory voicedTarget.entries).length) = (.ok (), 112, 148) := by cbv
  obtain ⟨hdone, himage, hdirectory⟩ := by simpa only [Prod.mk.injEq] using hrun
  refine ⟨Prod.ext rfl hdone, ?_⟩
  rw [DataSet.Draft.length_toBytes, DataSet.Draft.length_checked, DataSet.Draft.length_body, himage,
    hdirectory]
  decide

/-- The text `がき` finds `か`, then `がき` as it is, then `かき`. -/
theorem modifierInsensitiveSearch_of_writeTo_voiced :
    (DataSet.Draft.empty [0xEF]).addAll [] = (.empty [0xEF], .ok ()) ∧
      voicedReadings.writeTo (.empty [0xEF]) 32 = (voicedTarget, .ok ()) ∧
      voicedTarget.toBytes.length < UInt64.size ∧
      ∃ blob l, DataSet.Blob.ofBytes voicedTarget.toBytes [0xEF] = .ok blob ∧
        ofBlob blob = .ok l ∧
        (l.modifierInsensitiveSearch "がき").map (·.reading) = ["か", "がき", "かき"] := by
  obtain ⟨hwritten, hsize⟩ := writeTo_voicedReadings
  obtain ⟨blob, l, hblob, hopen, hsearch, -⟩ :=
    modifierInsensitiveSearch_of_writeTo voicedReadings [0xEF] [] 32 _ _ rfl hwritten hsize
  obtain ⟨hmem, hnodup, -, horder⟩ := hsearch "がき"
  refine ⟨rfl, hwritten, hsize, blob, l, hblob, hopen, ?_⟩
  have hfound : ∀ reading ∈ voicedReadings.addedReadings,
      (∃ front ∈ "がき".toList.inits, front ≠ [] ∧
        List.Forall₂ Modifier.Agree reading.toList front) →
          reading ∈ ["か", "がき", "かき"] := by decide
  have hback : ∀ reading ∈ ["か", "がき", "かき"], reading ∈ voicedReadings.addedReadings ∧
      ∃ front ∈ "がき".toList.inits, front ≠ [] ∧
        List.Forall₂ Modifier.Agree reading.toList front := by decide
  have hsame : ∀ reading, reading ∈ (l.modifierInsensitiveSearch "がき").map (·.reading) ↔
      reading ∈ ["か", "がき", "かき"] := by
    intro reading
    simp only [List.mem_inits] at hfound hback
    rw [hmem]
    exact ⟨fun ⟨hadded, hfront⟩ ↦ hfound reading hadded hfront, hback reading⟩
  have hsorted : ((l.modifierInsensitiveSearch "がき").map (·.reading)).Pairwise
      fun reading other ↦ Utf8.byteLength reading ≤ Utf8.byteLength other ∧
        (Utf8.byteLength reading = Utf8.byteLength other → ¬ other.toList <+: "がき".toList) :=
    List.pairwise_map.mpr horder
  refine List.Perm.eq_of_pairwise (fun a b ha hb ↦ ?_) hsorted (by decide)
    ((List.perm_ext_iff_of_nodup hnodup (by decide)).mpr hsame)
  have hone : ∀ a ∈ ["か", "がき", "かき"], ∀ b ∈ ["か", "がき", "かき"],
      (Utf8.byteLength a ≤ Utf8.byteLength b ∧
        (Utf8.byteLength a = Utf8.byteLength b → ¬ b.toList <+: "がき".toList)) →
      (Utf8.byteLength b ≤ Utf8.byteLength a ∧
        (Utf8.byteLength b = Utf8.byteLength a → ¬ a.toList <+: "がき".toList)) → a = b := by
    decide
  exact hone a ((hsame a).mp ha) b hb

end Lexicon

end KanaKanji
