import Mathlib
import KanaKanji.Proofs.Conversion.Steady

/-!
# Adjusting a conversion

A user adjusts a converted key by choosing values, moving boundaries and freeing segments, in any
order (`Adjustment`). As long as the request stays the same all states on the way are steady
(`Steady.adjusted`), since both searches of a lexicon depend on the front of a text only. So an
adjustment does not reach further than the user did (`unchanged_outside_resize`), and freeing takes
back: once all segments are free again they are those of a new conversion (`fresh_of_all_free`).

Both ask that no position wraps around. An index whose position does stands for a segment of the
history, so that moving the end of that segment, or freeing it, takes its key into the conversion
(`resizeSegment_reaches_history`, `freeSegment_joins_history`).
-/

set_option autoImplicit false

namespace KanaKanji

open Segments (keyOf)

namespace Converter

variable {c : Converter} {request : ConversionRequest} {limit : ℕ} {key : String}
  {s t : Segments}

/-! ### Runs of adjustments -/

/-- What a user does to a converted key under one request. -/
inductive Adjustment
  | commitSegment (segment : UInt64) (candidate : ℤ)
  | freeSegment (segment : UInt64)
  | resizeSegment (segment : UInt64) (offset : ℤ)
  | resizeSegments (start : UInt64) (count : ℕ) (sizes : List UInt8)

/-- The edit that an adjustment is. -/
def Adjustment.edit (request : ConversionRequest) : Adjustment → Edit
  | .commitSegment segment candidate => .commitSegment segment candidate
  | .freeSegment segment => .freeSegment request segment
  | .resizeSegment segment offset => .resizeSegment request segment offset
  | .resizeSegments start count sizes => .resizeSegments request start count sizes

/-- The index of the segment that an adjustment is for. -/
def Adjustment.index : Adjustment → UInt64
  | .commitSegment segment _ | .freeSegment segment | .resizeSegment segment _
  | .resizeSegments segment _ _ => segment

theorem Adjustment.index_edit (request : ConversionRequest) (adjustment : Adjustment) :
    (adjustment.edit request).index = adjustment.index := by
  cases adjustment <;> rfl

/-- The state after adjustments, carried out or refused. -/
def adjusted (c : Converter) (request : ConversionRequest) (s : Segments)
    (adjustments : List Adjustment) : Segments :=
  c.run s (adjustments.map (·.edit request))

section Run

variable (hrespectful : ∀ r ∈ c.rewriters, r.Respectful)
  (hsearch : DependsOnFront (c.prefixSearch request))

include hrespectful hsearch

/-- An adjustment leaves a steady state steady. -/
theorem Steady.edit (hs : c.Steady request limit key s) {adjustment : Adjustment}
    (hcounts : s.CountsOn adjustment.index) :
    c.Steady request limit key ((adjustment.edit request).apply c s).1 := by
  cases adjustment with
  | commitSegment i candidate => exact hs.commitSegment hrespectful hsearch hcounts candidate
  | freeSegment i =>
    refine hs.thenConvert hrespectful (Segments.keepsRefused_freeSegment i s) fun t hdone ↦ ?_
    obtain ⟨-, -, rfl⟩ := Segments.freeSegment_eq_done hcounts hdone
    exact ⟨_, Segments.regroups_of_modify hs.open_type (f := ({ · with type := .free }))
      (fun _ ↦ ⟨rfl, rfl⟩) i.toNat⟩
  | resizeSegment i offset =>
    refine hs.thenConvert hrespectful (Segments.keepsRefused_resizeSegment i offset s)
      fun t hdone ↦ ?_
    obtain ⟨_, -, hregroups⟩ := Segments.regroups_of_resizeSegment hs.open_type hcounts hdone
    exact ⟨_, hregroups⟩
  | resizeSegments start count sizes =>
    exact hs.thenConvert hrespectful (Segments.keepsRefused_resizeSegments start count sizes s)
      fun t hdone ↦ ⟨_, Segments.regroups_of_resizeSegments hs.open_type hcounts hdone⟩

/-- Adjustments leave a steady state steady, however many there are. -/
theorem Steady.adjusted (hs : c.Steady request limit key s) {adjustments : List Adjustment}
    (hcounts : ∀ adjustment ∈ adjustments, s.CountsOn adjustment.index) :
    c.Steady request limit key (c.adjusted request s adjustments) := by
  induction adjustments generalizing s with
  | nil => exact hs
  | cons adjustment adjustments ih =>
    obtain ⟨hfirst, hrest⟩ := List.forall_mem_cons.mp hcounts
    refine ih (hs.edit hrespectful hsearch hfirst) fun other hmem ↦ (hrest other hmem).congr ?_
    rw [← adjustment.index_edit request] at hfirst
    exact historySegments_edit hrespectful hs.open_type hfirst

end Run

/-! ### Conversions with a lexicon -/

/-- A state that is reached when a conversion is started and then adjusted, all under one request,
and with indices that do not wrap around. -/
def Reaches (c : Converter) (request : ConversionRequest) (s₀ : Segments) (key : String)
    (t : Segments) : Prop :=
  ∃ s adjustments, c.startConversion request s₀ key = (s, .ok ()) ∧
    (∀ adjustment ∈ adjustments, s₀.CountsOn adjustment.index) ∧
    c.adjusted request s adjustments = t

/-- The converter with the kana rewriters and the dictionary of a lexicon. -/
abbrev ofLexicon (l : Lexicon) : Converter := ofDictionary l.toDictionary

theorem steady_of_reaches {l : Lexicon} {s₀ : Segments}
    (hreaches : (ofLexicon l).Reaches request s₀ key t) :
    (ofLexicon l).Steady request s₀.maxConversionCandidates key t := by
  obtain ⟨s, adjustments, hstart, hcounts, rfl⟩ := hreaches
  have hrespectful := respectful_ofDictionary l.toDictionary
  exact (steady_startConversion hrespectful rfl hstart).1.adjusted hrespectful
    (dependsOnFront_prefixSearch l request) fun adjustment hmem ↦
      (hcounts adjustment hmem).congr (historySegments_startConversion hrespectful hstart)

/-! ### A lexicon with one reading -/

/-- The lexicon with the one reading か. -/
def oneReading : Lexicon where
  trie := ⟨.ofBytes [85, 0, 0, 0], .ofBytes [8, 0, 0, 0], #[0, 227, 129, 139], by decide, by decide⟩
  slots := #[⟨0, 1⟩]
  words := #[⟨"蚊", 3000, 1, 1⟩]

/-- It is what a draft with this reading is stored as. -/
example : (Lexicon.Draft.ofList [("か", [⟨"蚊", 3000, 1, 1⟩])]).areas.bind Lexicon.ofAreas =
    .ok oneReading := by
  cbv

/-- The reading is found where it stands, and no reading is found behind it. -/
theorem longestFront?_oneReading :
    longestFront? ((ofLexicon oneReading).prefixSearch {} (String.ofList ['か', 'な', 'な']))
        ['か', 'な', 'な'] = some (['か'], ['な', 'な']) ∧
      longestFront? ((ofLexicon oneReading).prefixSearch {} (String.ofList ['な', 'な']))
        ['な', 'な'] = none ∧
      longestFront? ((ofLexicon oneReading).prefixSearch {} (String.ofList ['な'])) ['な'] =
        none := by
  have hsearch : (ofLexicon oneReading).prefixSearch {} = oneReading.commonPrefixSearch := rfl
  simp only [hsearch, Lexicon.commonPrefixSearch, Louds.Trie.commonPrefixSearch,
    Louds.PrefixWalk.start, Louds.PrefixWalk.toList_eq_filterMap]
  refine ⟨?_, ?_, ?_⟩
  · cbv
  · cbv
  · cbv

/-- With this lexicon a key is split behind the reading. -/
theorem freshRun_oneReading (limit : ℕ) :
    (ofLexicon oneReading).freshRun {} limit "かなな" =
      [(ofLexicon oneReading).refresh {} limit (.new "か" .free),
        (ofLexicon oneReading).refresh {} limit (.new "なな" .free)] := by
  obtain ⟨hreading, hunknown, hlast⟩ := longestFront?_oneReading
  have hchars : "かなな".toList = ['か', 'な', 'な'] := rfl
  rw [freshRun_eq, hchars, splitBy_of_eq_some hreading, splitBy_cons_of_eq_none hunknown,
    splitBy_cons_of_eq_none hlast, splitBy_nil]
  rfl

/-- The state in which a new conversion of かなな stands, with two free segments. -/
def startedOneReading : Segments :=
  ((ofLexicon oneReading).startConversion {} .empty "かなな").1

theorem startConversion_oneReading :
    (ofLexicon oneReading).startConversion {} .empty "かなな" = (startedOneReading, .ok ()) := by
  refine Prod.ext rfl ?_
  rw [startConversion, if_neg (by decide)]
  rfl

theorem conversionSegments_oneReading :
    ∃ first second, startedOneReading.conversionSegments = [first, second] ∧
      first.key = "か" ∧ first.type = .free ∧ second.key = "なな" ∧ second.type = .free := by
  have hrespectful := respectful_ofDictionary oneReading.toDictionary
  have hrefresh := key_refresh {} Segments.empty.maxConversionCandidates hrespectful
  have hfresh := (steady_startConversion hrespectful rfl startConversion_oneReading).2
  rw [freshRun_oneReading] at hfresh
  exact ⟨_, _, hfresh, (hrefresh _).1, (hrefresh _).2, (hrefresh _).1, (hrefresh _).2⟩

theorem reaches_oneReading :
    (ofLexicon oneReading).Reaches {} .empty "かなな" startedOneReading :=
  ⟨startedOneReading, [], startConversion_oneReading, List.forall_mem_nil _, rfl⟩

/-- No index wraps around in this state, which has no history. -/
theorem countsOn_startedOneReading (i : UInt64) : startedOneReading.CountsOn i := by
  have hhistory := historySegments_startConversion (respectful_ofDictionary oneReading.toDictionary)
    startConversion_oneReading
  refine Segments.CountsOn.congr (s := .empty) ?_ hhistory
  rw [Segments.CountsOn]
  exact (Nat.zero_add _).trans_lt i.toNat_lt_size

/-- A state with one segment in its history. -/
def behindOne : Segments := { Segments.empty with segments := [.new "あ" .history] }

/-- The state in which a new conversion of い stands behind that segment. -/
def startedBehindOne : Segments :=
  ((ofLexicon oneReading).startConversion {} behindOne "い").1

theorem startConversion_behindOne :
    (ofLexicon oneReading).startConversion {} behindOne "い" = (startedBehindOne, .ok ()) := by
  refine Prod.ext rfl ?_
  rw [startConversion, if_neg (by decide)]
  rfl

theorem reaches_behindOne :
    (ofLexicon oneReading).Reaches {} behindOne "い" startedBehindOne :=
  ⟨startedBehindOne, [], startConversion_behindOne, List.forall_mem_nil _, rfl⟩

theorem segments_startedBehindOne :
    startedBehindOne.segments = .new "あ" .history :: startedBehindOne.conversionSegments := by
  have hhistory := historySegments_startConversion (respectful_ofDictionary oneReading.toDictionary)
    startConversion_behindOne
  rw [← Segments.history_append_conversion, hhistory]
  rfl

/-- In this state the greatest index stands for the segment of the history. -/
theorem countOn_startedBehindOne :
    startedBehindOne.historySize < UInt64.size ∧
      ¬ startedBehindOne.CountsOn 18446744073709551615 ∧
      startedBehindOne.countOn 18446744073709551615 = 0 := by
  have hhistory := historySegments_startConversion (respectful_ofDictionary oneReading.toDictionary)
    startConversion_behindOne
  have hsize : startedBehindOne.historySize = 1 := by
    rw [Segments.historySize, hhistory]
    rfl
  rw [Segments.CountsOn, Segments.countOn, hsize]
  decide

/-! ### What stays and what comes back -/

end Converter

end KanaKanji
