import Mathlib
import KanaKanji.Dictionary
import KanaKanji.Proofs.Ranking

/-!
# Ranked predictions

A prediction scans some readings, and each of them has words. A dictionary without a ranking of its
own (`RanksFindings`) sorts the pairs of a reading and a word by cost, keeps of each surface the
first pair, and cuts the list off. What comes out can be told without sorting: a pair stands for its
surface if no other pair with that surface costs less and none as cheap is scanned before it
(`StandsForSurface`). Without a limit the pairs that stand for their surfaces are all there, and
they alone (`mem_ranking_iff`).

`cheapest_predictRanked` says what a limit leaves of them: as many as it allows, the cheapest ones,
and never others for a smaller limit than for a greater one. None of this needs any property of the
readings or the words scanned.
-/

set_option autoImplicit false

namespace KanaKanji.Dictionary

/-- The words of the readings scanned, each with its reading. -/
def scanned (d : Dictionary) (start : String) (scanLimit : ℕ) : List (String × Word) :=
  (d.predict start scanLimit).flatMap fun f ↦ f.words.map (f.reading, ·)

/-- None of the pairs with the surface of this one costs less, and of those as cheap this one comes
first. -/
structure StandsForSurface (pairs : List (String × Word)) (pair : String × Word) : Prop where
  cheapest : ∀ other ∈ pairs, other.2.surface = pair.2.surface → pair.2.cost ≤ other.2.cost
  first : pairs.find? (fun other ↦ other.2.surface = pair.2.surface ∧ other.2.cost = pair.2.cost) =
    some pair

variable {pairs : List (String × Word)}

theorem StandsForSurface.mem {pair : String × Word} (hpair : StandsForSurface pairs pair) :
    pair ∈ pairs :=
  List.mem_of_find?_eq_some hpair.first

/-! ### Without a limit -/

/-- The pairs in ascending order of cost, of each surface only the first. -/
def ranking (pairs : List (String × Word)) : List (String × Word) :=
  Ranking.firstOfEach (·.2.surface) (Ranking.sortOn (·.2.cost.toInt) pairs)

/-- The dictionary ranks what it predicts in the default way, by the cost of the words. -/
def RanksFindings (d : Dictionary) : Prop :=
  ∀ start limit scanLimit,
    d.predictRanked start limit scanLimit = rankFindings (d.predict start scanLimit) limit

theorem RanksFindings.predictRanked_eq_take {d : Dictionary} (hranks : d.RanksFindings)
    (start : String) (limit scanLimit : ℕ) :
    d.predictRanked start limit scanLimit = (ranking (d.scanned start scanLimit)).take limit :=
  hranks start limit scanLimit

/-- A ranking consists of the pairs that stand for their surfaces. -/
theorem mem_ranking_iff {pair : String × Word} :
    pair ∈ ranking pairs ↔ StandsForSurface pairs pair := by
  rw [ranking, Ranking.mem_firstOfEach_sortOn_iff]
  simp only [← Int16.le_iff_toInt_le, Int16.toInt_inj]
  exact ⟨fun ⟨hcheapest, hfirst⟩ ↦ ⟨hcheapest, hfirst⟩,
    fun hpair ↦ ⟨hpair.cheapest, hpair.first⟩⟩

theorem pairwise_ranking (pairs : List (String × Word)) :
    (ranking pairs).Pairwise fun pair other ↦ pair.2.cost ≤ other.2.cost := by
  simp only [Int16.le_iff_toInt_le]
  exact (Ranking.pairwise_sortOn _ _).sublist (Ranking.firstOfEach_sublist _ _)

theorem nodup_surfaces_ranking (pairs : List (String × Word)) :
    ((ranking pairs).map (·.2.surface)).Nodup :=
  Ranking.nodup_map_firstOfEach _ _

theorem length_ranking (pairs : List (String × Word)) :
    (ranking pairs).length = (pairs.map (·.2.surface)).toFinset.card := by
  rw [ranking, Ranking.length_firstOfEach]
  congr 1
  ext surface
  simp only [List.mem_toFinset, List.mem_map, Ranking.mem_sortOn]

/-- Each surface has a pair that stands for it. -/
theorem exists_mem_ranking {other : String × Word} (hother : other ∈ pairs) :
    ∃ pair ∈ ranking pairs,
      pair.2.surface = other.2.surface ∧ pair.2.cost ≤ other.2.cost := by
  simp only [Int16.le_iff_toInt_le]
  exact Ranking.exists_le_of_mem_sortOn hother

/-! ### With a limit -/

/-- What the limit cuts off is no cheaper than what it leaves. -/
theorem cost_le_of_cut_off {limit : ℕ} {pair other : String × Word}
    (hpair : pair ∈ (ranking pairs).take limit) (hother : other ∈ pairs)
    (hcut : other.2.surface ∉ ((ranking pairs).take limit).map (·.2.surface)) :
    pair.2.cost ≤ other.2.cost := by
  obtain ⟨best, hbest, hsurface, hle⟩ := exists_mem_ranking hother
  have hsorted := pairwise_ranking pairs
  rw [← List.take_append_drop limit (ranking pairs), List.pairwise_append] at hsorted
  rw [← List.take_append_drop limit (ranking pairs), List.mem_append] at hbest
  have hbehind : best ∈ (ranking pairs).drop limit :=
    hbest.resolve_left fun hkept ↦ hcut (List.mem_map.mpr ⟨best, hkept, hsurface⟩)
  exact Int16.le_trans (hsorted.2.2 pair hpair best hbehind) hle

/-- Predictions ranked in the default way ascend in cost, have no surface twice, and there are as
many of them as there are surfaces among the words scanned, up to the limit. Each of them stands for
its surface, and no surface that is left out has a word that is cheaper than one of theirs. A
smaller limit gives the first of those that a greater one gives. -/
theorem cheapest_predictRanked (d : Dictionary) (hranks : d.RanksFindings) (start : String)
    (limit scanLimit : ℕ) :
    ((d.predictRanked start limit scanLimit).Pairwise fun pair other ↦
      pair.2.cost ≤ other.2.cost) ∧
    ((d.predictRanked start limit scanLimit).map (·.2.surface)).Nodup ∧
    (d.predictRanked start limit scanLimit).length =
      min limit ((d.scanned start scanLimit).map (·.2.surface)).toFinset.card ∧
    (∀ pair ∈ d.predictRanked start limit scanLimit,
      pair ∈ d.scanned start scanLimit ∧ StandsForSurface (d.scanned start scanLimit) pair) ∧
    (∀ pair ∈ d.predictRanked start limit scanLimit, ∀ other ∈ d.scanned start scanLimit,
      other.2.surface ∉ (d.predictRanked start limit scanLimit).map (·.2.surface) →
        pair.2.cost ≤ other.2.cost) ∧
    ∀ fewer ≤ limit,
      d.predictRanked start fewer scanLimit <+: d.predictRanked start limit scanLimit := by
  simp only [hranks.predictRanked_eq_take]
  have htake := List.take_sublist limit (ranking (d.scanned start scanLimit))
  refine ⟨(pairwise_ranking _).sublist htake, (nodup_surfaces_ranking _).sublist (htake.map _), ?_,
    fun pair hpair ↦ ?_, fun pair hpair other hother hcut ↦ cost_le_of_cut_off hpair hother hcut,
    fun fewer hfewer ↦ List.take_prefix_take_left hfewer⟩
  · rw [List.length_take, length_ranking]
  · have hstands := mem_ranking_iff.mp (htake.subset hpair)
    exact ⟨hstands.mem, hstands⟩

/-- Two readings that share the word 蚊, which is cheaper under the second, and three words of one
cost, one of them twice. -/
def sharedSurfaces : Dictionary where
  lookup _ := []
  predict _ scanLimit :=
    [⟨"か", [⟨"蚊", 5, 1, 1⟩, ⟨"香", -3, 2, 2⟩]⟩,
      ⟨"かき", [⟨"蚊", -3, 3, 3⟩, ⟨"蚊", -3, 4, 4⟩, ⟨"柿", -3, 5, 5⟩]⟩].take scanLimit
  commonPrefixSearch _ := []
  modifierInsensitiveSearch _ := []

/-- With a limit of two the third surface of the same cost is cut off, and 蚊 comes with the first
of its cheapest words. -/
theorem cheapest_predictRanked_tied :
    sharedSurfaces.RanksFindings ∧ ("かき", ⟨"蚊", -3, 3, 3⟩) ∈ sharedSurfaces.predictRanked "か" 2 9 ∧
      StandsForSurface (sharedSurfaces.scanned "か" 9) ("かき", ⟨"蚊", -3, 3, 3⟩) ∧
      ("かき", ⟨"柿", -3, 5, 5⟩) ∈ sharedSurfaces.scanned "か" 9 ∧
      "柿" ∉ (sharedSurfaces.predictRanked "か" 2 9).map (·.2.surface) ∧
      (-3 : Int16) ≤ -3 ∧
      1 ≤ 2 ∧
      sharedSurfaces.predictRanked "か" 1 9 <+: sharedSurfaces.predictRanked "か" 2 9 := by
  have hranks : sharedSurfaces.RanksFindings := fun _ _ _ ↦ rfl
  have hranked : sharedSurfaces.predictRanked "か" 2 9 =
      [("か", ⟨"香", -3, 2, 2⟩), ("かき", ⟨"蚊", -3, 3, 3⟩)] := by cbv
  have hkept : ("かき", (⟨"蚊", -3, 3, 3⟩ : Word)) ∈ sharedSurfaces.predictRanked "か" 2 9 := by
    rw [hranked]
    decide
  have hother : ("かき", (⟨"柿", -3, 5, 5⟩ : Word)) ∈ sharedSurfaces.scanned "か" 9 := by decide
  have hcut : "柿" ∉ (sharedSurfaces.predictRanked "か" 2 9).map (·.2.surface) := by
    rw [hranked]
    decide
  obtain ⟨-, -, -, hstands, hleft, hfront⟩ :=
    cheapest_predictRanked sharedSurfaces hranks "か" 2 9
  exact ⟨hranks, hkept, (hstands _ hkept).2, hother, hcut, hleft _ hkept _ hother hcut, by decide,
    hfront 1 (by decide)⟩

end KanaKanji.Dictionary
