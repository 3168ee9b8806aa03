import Mathlib
import KanaKanji.Proofs.Conversion.Adjustment
import KanaKanji.Proofs.Conversion.Fallbacks
import KanaKanji.Proofs.Lexicon.StoredReadings

/-!
# What a lexicon offers for a key

A key is offered the words added under it, at their costs, and if the request ignores modifiers also
those added under a reading that agrees with it up to modifiers, at a penalty (`offeredCosts`). A
surface may so be offered more than once. On the way from the words to the candidates, repetitions
go twice: for each reading when its words are stored, and for the key when the candidates are
ranked. Both times the cheapest one stays, so that each surface is left with the least of its costs
(`isLeast_cost_of_mem_candidatesFor`), and none is lost (`exists_mem_candidatesFor`).
-/

set_option autoImplicit false

namespace KanaKanji

/-! ### Words -/

theorem mem_of_mem_rankWords {words : List Word} {word : Word} (hmem : word ∈ rankWords words) :
    word ∈ words :=
  Ranking.mem_sortOn.mp (Ranking.mem_of_mem_firstOfEach hmem)

/-- A surface stays at a cost that is not above any that it has. -/
theorem exists_mem_rankWords {words : List Word} {word : Word} (hmem : word ∈ words) :
    ∃ kept ∈ rankWords words,
      kept.surface = word.surface ∧ kept.cost.toInt ≤ word.cost.toInt :=
  Ranking.exists_le_of_mem_sortOn hmem

/-- The cost of a word and a penalty of either kind add up within 32 bits. -/
theorem toInt_cost_ofWord (key : String) (word : Word) (penalty : Int32)
    (hlow : 0 ≤ penalty.toInt) (hhigh : penalty.toInt ≤ 1500) :
    (Candidate.ofWord key word penalty).cost.toInt = word.cost.toInt + penalty.toInt := by
  have hlow' := Int16.le_toInt word.cost
  have hhigh' := Int16.toInt_lt word.cost
  have hmin : Int32.minValue.toInt = - 2 ^ 31 := Int32.toInt_minValue
  have hmax : Int32.maxValue.toInt = 2 ^ 31 - 1 := Int32.toInt_maxValue
  have hcost : (Int32.ofInt word.cost.toInt).toInt = word.cost.toInt :=
    Int32.toInt_ofInt_of_le (by omega) (by omega)
  show (addCost (Int32.ofInt word.cost.toInt) penalty).toInt = _
  rw [toInt_addCost, hcost]
  omega

/-! ### Offers -/

/-- The costs at which a draft offers a surface for a key. -/
def Lexicon.Draft.offeredCosts (draft : Draft) (request : ConversionRequest)
    (key surface : String) : Set ℤ :=
  {cost | (∃ word ∈ draft.wordsUnder key, word.surface = surface ∧ word.cost.toInt = cost) ∨
    request.isModifierInsensitive = true ∧
      ∃ reading, List.Forall₂ Modifier.Agree reading.toList key.toList ∧
        ∃ word ∈ draft.wordsUnder reading,
          word.surface = surface ∧ word.cost.toInt + 1500 = cost}

namespace Converter

open Lexicon

variable {draft : Lexicon.Draft} {l : Lexicon}

section Stored

variable (hstored : l.Stored draft)

include hstored

theorem mem_exactCandidates_iff {key : String} {c : Candidate} :
    c ∈ (ofLexicon l).exactCandidates key ↔
      ∃ word ∈ rankWords (draft.wordsUnder key), c = .ofWord key word 0 := by
  rw [exactCandidates, List.mem_map]
  show (∃ word ∈ l.lookup key, _) ↔ _
  rw [hstored.lookup_eq]
  constructor
  · rintro ⟨word, hword, rfl⟩
    exact ⟨word, hword, rfl⟩
  · rintro ⟨word, hword, rfl⟩
    exact ⟨word, hword, rfl⟩

/-- Of the readings that the search finds for a key, those of its size agree with all of it. -/
theorem mem_modifierInsensitiveSearch_of_byteLength {key : String} {found : Finding} :
    (found ∈ l.modifierInsensitiveSearch key ∧
      Utf8.byteLength found.reading = Utf8.byteLength key) ↔
      found.reading ≠ "" ∧ List.Forall₂ Modifier.Agree found.reading.toList key.toList ∧
        found.reading ∈ draft.addedReadings ∧
        found.words = rankWords (draft.wordsUnder found.reading) := by
  have hsize : ∀ {front : List Char}, List.Forall₂ Modifier.Agree found.reading.toList front →
      Utf8.byteLength found.reading = Text.byteCount front := by
    intro front hagree
    rw [← (Modifier.spells_iff_forall₂_agree.mpr hagree).byteCount_eq, ← Utf8.byteLength_ofList,
      String.ofList_toList]
  have hkey : Utf8.byteLength key = Text.byteCount key.toList := by
    rw [← Utf8.byteLength_ofList, String.ofList_toList]
  rw [hstored.mem_modifierInsensitiveSearch_iff, hstored.lookup_eq]
  constructor
  · rintro ⟨⟨hne, ⟨front, ⟨tail, htail⟩, hagree⟩, hadded, hwords⟩, hlength⟩
    rw [hsize hagree, hkey] at hlength
    have hwhole := (Text.append_eq_append_of_byteCount (htail.trans (List.append_nil _).symm)
      hlength).1
    exact ⟨hne, hwhole ▸ hagree, hadded, hwords⟩
  · rintro ⟨hne, hagree, hadded, hwords⟩
    exact ⟨⟨hne, ⟨_, List.prefix_rfl, hagree⟩, hadded, hwords⟩, (hsize hagree).trans hkey.symm⟩

theorem mem_variantCandidates_iff {key : String} {c : Candidate} :
    c ∈ (ofLexicon l).variantCandidates key ↔
      ∃ reading ∈ draft.addedReadings, reading ≠ "" ∧ reading ≠ key ∧
        List.Forall₂ Modifier.Agree reading.toList key.toList ∧
        ∃ word ∈ rankWords (draft.wordsUnder reading),
          c = (Candidate.ofWord key word modifierPenalty).withAttributes
            .kanaModifierExpanded := by
  rw [variantCandidates, List.mem_flatMap]
  simp only [List.mem_filter, Bool.and_eq_true, beq_iff_eq, bne_iff_ne, List.mem_map]
  constructor
  · rintro ⟨found, ⟨hfound, hlength, hother⟩, word, hword, rfl⟩
    obtain ⟨hne, hagree, hadded, hwords⟩ :=
      (mem_modifierInsensitiveSearch_of_byteLength hstored).mp ⟨hfound, hlength⟩
    exact ⟨found.reading, hadded, hne, hother, hagree, word, hwords ▸ hword, rfl⟩
  · rintro ⟨reading, hadded, hne, hother, hagree, word, hword, rfl⟩
    have hfound : (⟨reading, rankWords (draft.wordsUnder reading)⟩ : Finding) ∈
        l.modifierInsensitiveSearch key ∧ Utf8.byteLength reading = Utf8.byteLength key :=
      (mem_modifierInsensitiveSearch_of_byteLength hstored).mpr ⟨hne, hagree, hadded, rfl⟩
    exact ⟨_, ⟨hfound.1, hfound.2, hother⟩, word, hword, rfl⟩

end Stored

/-! ### Candidates -/

/-- The candidates of a key before they are ranked. -/
def offeredCandidates (c : Converter) (request : ConversionRequest) (key : String) :
    List Candidate :=
  c.exactCandidates key ++ if request.isModifierInsensitive then c.variantCandidates key else []

/-- The candidates of a key in their order, of each value the cheapest. -/
def rankedOffers (c : Converter) (request : ConversionRequest) (key : String) : List Candidate :=
  Ranking.firstOfEach Candidate.value
    (Ranking.sortOn (·.cost.toInt) (c.offeredCandidates request key))

theorem candidatesFor_eq (c : Converter) (request : ConversionRequest) (key : String) :
    c.candidatesFor request key =
      if (c.rankedOffers request key).isEmpty then [.new key key]
      else c.rankedOffers request key :=
  rfl

theorem ranked_candidatesFor (c : Converter) (request : ConversionRequest) (key : String) :
    Candidate.Ranked (c.candidatesFor request key) := by
  rw [candidatesFor_eq]
  split
  · exact Candidate.ranked_singleton _
  · exact Candidate.ranked_firstOfEach_sortOn _

section Offered

variable (hstored : l.Stored draft) {request : ConversionRequest} {key : String}

include hstored

/-- A candidate is a word that is offered for the key. -/
theorem cost_mem_of_mem_offeredCandidates {c : Candidate}
    (hmem : c ∈ (ofLexicon l).offeredCandidates request key) :
    c.key = key ∧ c.cost.toInt ∈ draft.offeredCosts request key c.value := by
  rcases List.mem_append.mp hmem with hexact | hvariant
  · obtain ⟨word, hword, rfl⟩ := (mem_exactCandidates_iff hstored).mp hexact
    have hcost := toInt_cost_ofWord key word 0 (by decide) (by decide)
    refine ⟨rfl, .inl ⟨word, mem_of_mem_rankWords hword, rfl, ?_⟩⟩
    exact (hcost.trans (Int.add_zero _)).symm
  · split at hvariant
    case isFalse => exact absurd hvariant List.not_mem_nil
    case isTrue hignores =>
      obtain ⟨reading, -, -, -, hagree, word, hword, rfl⟩ :=
        (mem_variantCandidates_iff hstored).mp hvariant
      have hcost := toInt_cost_ofWord key word modifierPenalty (by decide) (by decide)
      exact ⟨rfl, .inr ⟨hignores, reading, hagree, word, mem_of_mem_rankWords hword, rfl,
        hcost.symm⟩⟩

/-- What is offered at a cost is a candidate at that cost or a lower one. -/
theorem exists_mem_offeredCandidates (hempty : "" ∉ draft.addedReadings) {surface : String}
    {cost : ℤ} (hcost : cost ∈ draft.offeredCosts request key surface) :
    ∃ c ∈ (ofLexicon l).offeredCandidates request key,
      c.value = surface ∧ c.cost.toInt ≤ cost := by
  have hexact : ∀ word ∈ draft.wordsUnder key, ∃ c ∈ (ofLexicon l).offeredCandidates request key,
      c.value = word.surface ∧ c.cost.toInt ≤ word.cost.toInt := by
    intro word hword
    obtain ⟨kept, hkept, hsurface, hle⟩ := exists_mem_rankWords hword
    have hsum := toInt_cost_ofWord key kept 0 (by decide) (by decide)
    refine ⟨_, List.mem_append_left _ ((mem_exactCandidates_iff hstored).mpr ⟨kept, hkept, rfl⟩),
      hsurface, ?_⟩
    rw [hsum]
    exact (Int.add_zero _).trans_le hle
  rcases hcost with ⟨word, hword, rfl, rfl⟩ | ⟨hignores, reading, hagree, word, hword, rfl, rfl⟩
  · exact hexact word hword
  by_cases hsame : reading = key
  · -- The key itself needs no penalty.
    obtain ⟨c, hc, hvalue, hle⟩ := hexact word (hsame ▸ hword)
    exact ⟨c, hc, hvalue, by omega⟩
  have hadded : reading ∈ draft.addedReadings := by
    by_contra hmissing
    rw [Lexicon.Draft.wordsUnder_eq_nil hmissing] at hword
    exact absurd hword List.not_mem_nil
  obtain ⟨kept, hkept, hsurface, hle⟩ := exists_mem_rankWords hword
  have hsum := toInt_cost_ofWord key kept modifierPenalty (by decide) (by decide)
  have hpenalty : modifierPenalty.toInt = 1500 := by decide
  refine ⟨(Candidate.ofWord key kept modifierPenalty).withAttributes .kanaModifierExpanded,
    List.mem_append_right _ ?_, hsurface, ?_⟩
  · rw [if_pos hignores]
    exact (mem_variantCandidates_iff hstored).mpr
      ⟨reading, hadded, fun hnil ↦ hempty (hnil ▸ hadded), hsame, hagree, kept, hkept, rfl⟩
  · show (Candidate.ofWord key kept modifierPenalty).cost.toInt ≤ _
    omega

/-- Ranking keeps what is offered at a cost, at that cost or a lower one. -/
theorem exists_mem_rankedOffers (hempty : "" ∉ draft.addedReadings) {surface : String} {cost : ℤ}
    (hcost : cost ∈ draft.offeredCosts request key surface) :
    ∃ c ∈ (ofLexicon l).rankedOffers request key, c.value = surface ∧ c.cost.toInt ≤ cost := by
  obtain ⟨d, hd, hvalue, hle⟩ := exists_mem_offeredCandidates hstored hempty hcost
  obtain ⟨c, hc, hkind, hleast⟩ : ∃ c ∈ (ofLexicon l).rankedOffers request key,
      c.value = d.value ∧ c.cost.toInt ≤ d.cost.toInt := Ranking.exists_le_of_mem_sortOn hd
  exact ⟨c, hc, hkind.trans hvalue, hleast.trans hle⟩

/-- Each candidate of a key has the least cost at which its value is offered, unless nothing is
offered for the key; then the key itself is the candidate. -/
theorem isLeast_cost_of_mem_candidatesFor (hempty : "" ∉ draft.addedReadings) {c : Candidate}
    (hmem : c ∈ (ofLexicon l).candidatesFor request key) :
    c.key = key ∧ (IsLeast (draft.offeredCosts request key c.value) c.cost.toInt ∨
      c.value = key ∧ ∀ surface, draft.offeredCosts request key surface = ∅) := by
  have hranked := Candidate.ranked_firstOfEach_sortOn ((ofLexicon l).offeredCandidates request key)
  rw [candidatesFor_eq] at hmem
  split at hmem
  · next hnone =>
    rw [List.mem_singleton.mp hmem]
    refine ⟨rfl, .inr ⟨rfl, fun surface ↦ Set.eq_empty_iff_forall_notMem.mpr fun cost hcost ↦ ?_⟩⟩
    obtain ⟨d, hd, -⟩ := exists_mem_rankedOffers hstored hempty hcost
    rw [List.isEmpty_iff.mp hnone] at hd
    exact absurd hd List.not_mem_nil
  · have hoffered := Ranking.mem_sortOn.mp (Ranking.mem_of_mem_firstOfEach hmem)
    obtain ⟨hkey, hcost⟩ := cost_mem_of_mem_offeredCandidates hstored hoffered
    refine ⟨hkey, .inl ⟨hcost, fun cost hcost' ↦ ?_⟩⟩
    obtain ⟨d, hd, hvalue, hle⟩ := exists_mem_rankedOffers hstored hempty hcost'
    obtain rfl := hranked.eq_of_value_eq hd hmem hvalue
    exact hle

/-- No surface that is offered is lost. -/
theorem exists_mem_candidatesFor (hempty : "" ∉ draft.addedReadings) {surface : String}
    (hoffered : (draft.offeredCosts request key surface).Nonempty) :
    ∃ c ∈ (ofLexicon l).candidatesFor request key, c.value = surface := by
  obtain ⟨cost, hcost⟩ := hoffered
  obtain ⟨c, hc, hvalue, -⟩ := exists_mem_rankedOffers hstored hempty hcost
  refine ⟨c, ?_, hvalue⟩
  rw [candidatesFor_eq, if_neg fun hnone ↦ ?_]
  · exact hc
  · rw [List.isEmpty_iff.mp hnone] at hc
    exact absurd hc List.not_mem_nil

end Offered

end Converter

end KanaKanji
