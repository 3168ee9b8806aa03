import Mathlib
import KanaKanji.Lexicon.Areas
import KanaKanji.Proofs.Lists
import KanaKanji.Proofs.Ranking
import KanaKanji.Proofs.Text.ByteOrder

/-!
# Gathering the words of a draft

A draft lists what was added, in the order in which it came. `Draft.wordsUnder` picks the words of
one reading out of that list. The readings of a draft are the ones that were added, each once and in
ascending order (`pairwise_readings`), with exactly these words (`mem_readings_iff`): sorting by
readings leaves the additions under one reading in their order.

Sorted once more by their size (`Draft.rankedByLevel`), the readings stand level by level in bytes
(`pairwise_keys`), which is the order in which a trie numbers its keys.
-/

set_option autoImplicit false

namespace KanaKanji.Lexicon.Draft

/-- The readings that were added, as often as they were. -/
def addedReadings (draft : Draft) : List String := draft.additions.toList.map Prod.fst

/-- The words that were added under a reading, in the order in which they came. -/
def wordsUnder (draft : Draft) (reading : String) : List Word :=
  (draft.additions.toList.filter (·.1 = reading)).flatMap Prod.snd

/-- The readings in the order in which a trie numbers its keys: shorter ones first, and those of one
length in ascending order. Each has its words ranked. -/
def rankedByLevel (draft : Draft) : List (String × List Word) :=
  (Ranking.sortOn (Utf8.byteLength ·.1) draft.readings).map fun (reading, words) ↦
    (reading, rankWords words)

/-- The readings of a draft as keys, in the order in which they are stored. -/
def keys (draft : Draft) : List Louds.Key := draft.rankedByLevel.map (Utf8.encode ·.1)

/-- The lists of words of a draft, in the order in which they are stored. -/
def lists (draft : Draft) : List (List Word) := draft.rankedByLevel.map (·.2)

/-! ### Merging neighbours -/

section Gather

variable {additions : List (String × List Word)}

/-- Merging loses no reading and makes none up. -/
theorem mem_map_fst_gather {reading : String} :
    reading ∈ (gather additions).map Prod.fst ↔ reading ∈ additions.map Prod.fst := by
  induction additions with
  | nil => rfl
  | cons first rest ih =>
    obtain ⟨r, words⟩ := first
    rw [List.map_cons, List.mem_cons, ← ih, gather]
    split
    · next hrest => simp [hrest]
    · next next more others hrest =>
      rw [hrest]
      by_cases hsame : r = next
      · rw [if_pos hsame]
        simp [hsame]
      · rw [if_neg hsame]
        simp

/-- Merging puts the words under a reading in a row, wherever they stood. -/
theorem flatMap_filter_gather (reading : String) :
    ((gather additions).filter (·.1 = reading)).flatMap Prod.snd =
      (additions.filter (·.1 = reading)).flatMap Prod.snd := by
  induction additions with
  | nil => rfl
  | cons first rest ih =>
    obtain ⟨r, words⟩ := first
    rw [gather]
    split
    · next hrest =>
      rw [hrest] at ih
      rw [List.filter_cons, List.filter_cons (x := (r, words))]
      split
      · rw [List.flatMap_cons, List.flatMap_cons, ← ih]
      · exact ih
    · next next more others hrest =>
      rw [hrest] at ih
      by_cases hsame : r = next
      · subst hsame
        rw [if_pos rfl]
        by_cases hreading : r = reading
        · simpa [hreading] using ih
        · simpa [hreading] using ih
      · rw [if_neg hsame, List.filter_cons, List.filter_cons (x := (r, words))]
        split
        · rw [List.flatMap_cons, List.flatMap_cons, ih]
        · exact ih

variable (hsorted : additions.Pairwise fun a b ↦ a.1 ≤ b.1)

include hsorted

/-- Merging sorted additions leaves each reading once. -/
theorem pairwise_gather : (gather additions).Pairwise fun a b ↦ a.1 < b.1 := by
  induction additions with
  | nil => exact List.Pairwise.nil
  | cons first rest ih =>
    obtain ⟨r, words⟩ := first
    obtain ⟨hfirst, hrest⟩ := List.pairwise_cons.mp hsorted
    have hgathered := ih hrest
    have hbound : ∀ a ∈ gather rest, r ≤ a.1 := by
      intro a ha
      obtain ⟨b, hb, hsame⟩ := List.mem_map.mp (mem_map_fst_gather.mp (List.mem_map_of_mem ha))
      exact hsame ▸ hfirst b hb
    rw [gather]
    split
    · exact List.pairwise_singleton _ _
    · next next more others hothers =>
      rw [hothers] at hgathered hbound
      obtain ⟨hnext, htail⟩ := List.pairwise_cons.mp hgathered
      by_cases hsame : r = next
      · rw [if_pos hsame, hsame]
        exact List.pairwise_cons.mpr ⟨hnext, htail⟩
      · rw [if_neg hsame]
        have hlt : r < next := Std.lt_of_le_of_ne (hbound _ List.mem_cons_self) hsame
        refine List.pairwise_cons.mpr ⟨fun a ha ↦ ?_, hgathered⟩
        rcases List.mem_cons.mp ha with rfl | ha
        · exact hlt
        · exact Std.lt_trans hlt (hnext a ha)

/-- What merging sorted additions leaves under a reading are all the words that stood under it. -/
theorem words_of_mem_gather {reading : String} {words : List Word}
    (hmem : (reading, words) ∈ gather additions) :
    words = (additions.filter (·.1 = reading)).flatMap Prod.snd := by
  have hdistinct : (gather additions).Pairwise fun a b ↦ a.1 ≠ b.1 :=
    (pairwise_gather hsorted).imp Std.ne_of_lt
  have honly : (gather additions).filter (·.1 = reading) = [(reading, words)] :=
    Lists.filter_key_eq_singleton hdistinct hmem
  rw [← flatMap_filter_gather, honly, List.flatMap_singleton]

end Gather

/-! ### Readings -/

variable (draft : Draft)

/-- The readings of a draft ascend. -/
theorem pairwise_readings : draft.readings.Pairwise fun a b ↦ a.1 < b.1 :=
  pairwise_gather (Ranking.pairwise_sortOn Prod.fst draft.additions.toList)

/-- The readings of a draft are the ones added, each with the words added under it. -/
theorem mem_readings_iff {reading : String} {words : List Word} :
    (reading, words) ∈ draft.readings ↔
      reading ∈ draft.addedReadings ∧ words = draft.wordsUnder reading := by
  have hsorted := Ranking.pairwise_sortOn Prod.fst draft.additions.toList
  have hadded : reading ∈ draft.readings.map Prod.fst ↔ reading ∈ draft.addedReadings := by
    rw [readings, mem_map_fst_gather, addedReadings, List.mem_map, List.mem_map]
    simp only [Ranking.mem_sortOn]
  have hwords : ∀ ws, (reading, ws) ∈ draft.readings → ws = draft.wordsUnder reading := by
    intro ws hmem
    have hgathered := words_of_mem_gather hsorted hmem
    rwa [Ranking.filter_sortOn] at hgathered
  rw [← hadded]
  constructor
  · intro hmem
    exact ⟨List.mem_map_of_mem hmem, hwords words hmem⟩
  · rintro ⟨hin, rfl⟩
    obtain ⟨⟨r, ws⟩, hmem, rfl⟩ := List.mem_map.mp hin
    exact hwords ws hmem ▸ hmem

theorem wordsUnder_eq_nil {draft : Draft} {reading : String}
    (hadded : reading ∉ draft.addedReadings) : draft.wordsUnder reading = [] := by
  have hnone : draft.additions.toList.filter (·.1 = reading) = [] := by
    rw [List.filter_eq_nil_iff]
    intro a ha hsame
    exact hadded (List.mem_map.mpr ⟨a, ha, of_decide_eq_true hsame⟩)
  rw [wordsUnder, hnone, List.flatMap_nil]

/-! ### Level by level -/

/-- The stored readings are the ones added, each with its words ranked. -/
theorem mem_rankedByLevel_iff {reading : String} {words : List Word} :
    (reading, words) ∈ draft.rankedByLevel ↔
      reading ∈ draft.addedReadings ∧ words = rankWords (draft.wordsUnder reading) := by
  rw [rankedByLevel, List.mem_map]
  constructor
  · rintro ⟨⟨r, ws⟩, hmem, heq⟩
    obtain ⟨rfl, rfl⟩ := Prod.mk.inj heq
    obtain ⟨hadded, rfl⟩ := (mem_readings_iff draft).mp (Ranking.mem_sortOn.mp hmem)
    exact ⟨hadded, rfl⟩
  · rintro ⟨hadded, rfl⟩
    refine ⟨(reading, draft.wordsUnder reading), Ranking.mem_sortOn.mpr ?_, rfl⟩
    exact (mem_readings_iff draft).mpr ⟨hadded, rfl⟩

/-- In bytes the stored readings stand level by level. -/
theorem pairwise_keys : draft.keys.Pairwise (List.Shortlex (· < ·)) := by
  have hsorted : (Ranking.sortOn (Utf8.byteLength ·.1) draft.readings).Pairwise fun a b ↦
      Utf8.byteLength a.1 ≤ Utf8.byteLength b.1 ∧
        (Utf8.byteLength a.1 = Utf8.byteLength b.1 → a.1 < b.1) :=
    Ranking.pairwise_sortOn_and draft.pairwise_readings
  rw [keys, rankedByLevel, List.map_map, List.pairwise_map]
  refine hsorted.imp fun {a b} hab ↦ ?_
  rw [List.shortlex_def, Function.comp_apply, Function.comp_apply, Utf8.length_encode,
    Utf8.length_encode]
  rcases Nat.lt_or_eq_of_le hab.1 with hlt | heq
  · exact Or.inl hlt
  · exact Or.inr ⟨heq, Utf8.encode_lt_encode_iff.mpr (hab.2 heq)⟩

/-- A reading is stored once. -/
theorem nodup_map_fst_rankedByLevel : (draft.rankedByLevel.map Prod.fst).Nodup := by
  have hkeys : draft.keys.Nodup := draft.pairwise_keys.nodup
  refine List.Nodup.of_map Utf8.encode ?_
  rwa [List.map_map]

end KanaKanji.Lexicon.Draft
