import Mathlib
import KanaKanji.Proofs.Conversion.GreedySplit
import KanaKanji.Proofs.Conversion.OfferedCosts
import KanaKanji.Proofs.Prediction

/-!
# Ranked candidates after a conversion

A converted segment gets its candidates in stages: what the lexicon offers for its key is ranked,
the rewriters append forms of the key below it, and then a limit cuts the list. Up to the cut each
surface that is offered stands at the least of its costs (`Segment.CutFrom`), and at each stage the
candidates ascend in cost and differ in value. After an operation that converts, each segment whose
value is up to the converter comes out of these stages (`exists_refresh_of_mem_reconvert`).

A predicted key goes through the same stages with the ranking of all readings that begin with it,
if the dictionary has the default one, as a lexicon has (`ranked_predicted`). `ranked_of_operation`
says both for a lexicon that was written to a data set and opened again.
-/

set_option autoImplicit false

namespace KanaKanji

/-- The candidates of a segment are the first of a ranked list in which each surface that a draft
offers for the key stands at its least cost, and all others are forms of the key. -/
structure Segment.CutFrom (draft : Lexicon.Draft) (request : ConversionRequest) (limit : ℕ)
    (segment : Segment) (full : List Candidate) : Prop where
  candidates_eq : segment.candidates = full.take limit
  ranked : Candidate.Ranked full
  cost_least : ∀ c ∈ full, c.key = segment.key ∧
    (IsLeast (draft.offeredCosts request segment.key c.value) c.cost.toInt ∨
      draft.offeredCosts request segment.key c.value = ∅ ∧
        c.value ∈ segment.key :: Rewriter.scriptForms segment.key)
  exists_mem : ∀ surface, (draft.offeredCosts request segment.key surface).Nonempty →
    ∃ c ∈ full, c.value = surface

namespace Converter

variable (c : Converter) (request : ConversionRequest) (limit : ℕ)

/-! ### Converted segments -/

/-- A free segment after converting, or one with a set boundary, was filled anew. -/
theorem exists_refresh_of_mem_reconvert {key : String} {segments : List Segment}
    {segment : Segment} (hmem : segment ∈ c.reconvert request limit key segments)
    (hopen : segment.type = .free ∨ segment.type = .fixedBoundary) :
    ∃ s, (s.type = .free ∨ s.type = .fixedBoundary) ∧ segment = c.refresh request limit s := by
  have hfresh : ∀ key, segment ∈ c.freshRun request limit key →
      ∃ s, (s.type = .free ∨ s.type = .fixedBoundary) ∧ segment = c.refresh request limit s := by
    intro key hmem
    rw [freshRun_eq] at hmem
    obtain ⟨piece, -, rfl⟩ := List.mem_map.mp hmem
    exact ⟨_, .inl rfl, rfl⟩
  induction segments generalizing key with
  | nil => exact hfresh key hmem
  | cons first rest ih =>
    by_cases hfree : first.type = .free
    · rw [reconvert_cons_free _ _ _ hfree] at hmem
      exact ih hmem
    · rw [reconvert_cons _ _ _ hfree, List.mem_append, List.mem_cons] at hmem
      rcases hmem with hmem | rfl | hmem
      · exact hfresh key hmem
      · refine ⟨first, ?_, rfl⟩
        by_contra hkept
        rw [refresh, if_neg hkept] at hopen
        exact hkept hopen
      · exact ih hmem

/-- A segment that is filled anew gets the candidates of its key, those that the rewriters append,
and of all these the first ones. -/
theorem refresh_of_open {s : Segment} (hopen : s.type = .free ∨ s.type = .fixedBoundary) :
    c.refresh request limit s =
      (Rewriter.runAll request c.rewriters (c.fill request s)).1.truncate limit := by
  rw [refresh, if_pos hopen, polish]
  rcases hopen with htype | htype
  · simp only [fill, htype]
  · simp only [fill, htype]

section Stored

variable {draft : Lexicon.Draft} {l : Lexicon} (hstored : l.Stored draft)
  (hempty : "" ∉ draft.addedReadings)

include hstored hempty

/-- What rewriters append is not offered, or it would be there. -/
theorem cutFrom_of_extends {key : String} {filled rewritten : Segment} (hkey : filled.key = key)
    (hfilled : filled.candidates = (ofLexicon l).candidatesFor request key)
    (hextends : filled.Extends (Rewriter.scriptForms key) rewritten) :
    (rewritten.truncate limit).CutFrom draft request limit rewritten.candidates := by
  have hkey' : (rewritten.truncate limit).key = key := hextends.key_eq.trans hkey
  have hranked : Candidate.Ranked filled.candidates := hfilled ▸ ranked_candidatesFor _ _ _
  refine ⟨rfl, hextends.ranked hranked, fun c hc ↦ ?_, fun surface hne ↦ ?_⟩
  · rw [hkey']
    rcases hextends.of_mem hc with hold | ⟨hckey, hvalue, hfresh⟩
    · rw [hfilled] at hold
      obtain ⟨hckey, hleast | ⟨hvalue, hnone⟩⟩ :=
        isLeast_cost_of_mem_candidatesFor hstored hempty hold
      · exact ⟨hckey, .inl hleast⟩
      · exact ⟨hckey, .inr ⟨hnone _, List.mem_cons.mpr (.inl hvalue)⟩⟩
    · refine ⟨hckey.trans hkey, .inr ⟨?_, List.mem_cons_of_mem _ hvalue⟩⟩
      rw [← Set.not_nonempty_iff_eq_empty]
      intro hoffered
      obtain ⟨d, hd, hsame⟩ := exists_mem_candidatesFor hstored hempty hoffered
      exact hfresh (List.mem_map.mpr ⟨d, hfilled ▸ hd, hsame⟩)
  · rw [hkey'] at hne
    obtain ⟨d, hd, hsame⟩ := exists_mem_candidatesFor hstored hempty hne
    exact ⟨d, hextends.isPrefix_candidates.subset (hfilled ▸ hd), hsame⟩

theorem exists_cutFrom_refresh {s : Segment}
    (hopen : s.type = .free ∨ s.type = .fixedBoundary) :
    ∃ full, ((ofLexicon l).refresh request limit s).CutFrom draft request limit full := by
  rw [refresh_of_open _ _ _ hopen]
  exact ⟨_, cutFrom_of_extends request limit hstored hempty rfl rfl
    (Rewriter.extends_runAll_scripts (fun _ hr ↦ List.mem_pair.mp hr) request _)⟩

end Stored

/-! ### Predicted segments -/

/-- The segment of a predicted key before the rewriters. -/
def foretold (d : Dictionary) (limit : ℕ) (key : String) : Segment :=
  let candidates := (d.predictRanked key limit predictionScanLimit).map
    fun (reading, word) ↦ Candidate.ofWord reading word 0
  { Segment.new key .free with
    candidates := if candidates.isEmpty then [.new key key] else candidates }

theorem extends_foretold (d : Dictionary) (key : String) :
    ∃ rewritten, (ofDictionary d).predicted request limit key = rewritten.truncate limit ∧
      (foretold d limit key).Extends (Rewriter.scriptForms key) rewritten :=
  ⟨_, rfl, Rewriter.extends_runAll_scripts (fun _ hr ↦ List.mem_pair.mp hr) request
    (foretold d limit key)⟩

/-- The candidates for ranked words are ranked. -/
theorem ranked_map_predictRanked {d : Dictionary} (hranks : d.RanksFindings) (key : String)
    (scanLimit : ℕ) :
    Candidate.Ranked ((d.predictRanked key limit scanLimit).map
      fun (reading, word) ↦ Candidate.ofWord reading word 0) := by
  have hcost : ∀ found : String × Word,
      (Candidate.ofWord found.1 found.2 0).cost.toInt = found.2.cost.toInt := fun found ↦
    (toInt_cost_ofWord _ _ 0 (by decide) (by decide)).trans (Int.add_zero _)
  rw [hranks.predictRanked_eq_take, Dictionary.ranking, List.map_take]
  exact (Candidate.ranked_map_firstOfEach hcost (fun _ ↦ rfl) _).take limit

theorem ranked_foretold {d : Dictionary} (hranks : d.RanksFindings) (key : String) :
    Candidate.Ranked (foretold d limit key).candidates := by
  rw [foretold]
  dsimp only
  split
  · exact Candidate.ranked_singleton _
  · exact ranked_map_predictRanked limit hranks key _

theorem ranksFindings_toDictionary (l : Lexicon) : l.toDictionary.RanksFindings :=
  fun _ _ _ ↦ rfl

/-- What is predicted with a lexicon begins with the key. -/
theorem isPrefix_of_mem_foretold {draft : Lexicon.Draft} {l : Lexicon} (hstored : l.Stored draft)
    {key : String} {c : Candidate} (hmem : c ∈ (foretold l.toDictionary limit key).candidates) :
    key.toList <+: c.key.toList := by
  rw [foretold] at hmem
  dsimp only at hmem
  split at hmem
  · rw [List.mem_singleton.mp hmem]
    exact List.prefix_rfl
  · obtain ⟨⟨reading, word⟩, hranked, rfl⟩ := List.mem_map.mp hmem
    have hscanned := Ranking.mem_sortOn.mp
      (Ranking.mem_of_mem_firstOfEach (List.mem_of_mem_take hranked))
    obtain ⟨found, hfound, hpair⟩ := List.mem_flatMap.mp hscanned
    obtain ⟨word', -, hsame⟩ := List.mem_map.mp hpair
    obtain ⟨rfl, rfl⟩ := Prod.mk.inj hsame
    exact (hstored.isPrefix_of_mem_predict hfound).2

/-- The candidates of a predicted segment are ranked, and no more than the limit. -/
theorem ranked_predicted {d : Dictionary} (hranks : d.RanksFindings) (key : String) :
    Candidate.Ranked ((ofDictionary d).predicted request limit key).candidates ∧
      ((ofDictionary d).predicted request limit key).candidates.length ≤ limit := by
  obtain ⟨rewritten, hpredicted, hextends⟩ := extends_foretold request limit d key
  rw [hpredicted]
  exact ⟨(hextends.ranked (ranked_foretold limit hranks key)).take limit, List.length_take_le _ _⟩

theorem type_predicted (d : Dictionary) (key : String) :
    ((ofDictionary d).predicted request limit key).type = .free := by
  obtain ⟨rewritten, hpredicted, hextends⟩ := extends_foretold request limit d key
  rw [hpredicted]
  exact hextends.type_eq

theorem isPrefix_of_mem_predicted {draft : Lexicon.Draft} {l : Lexicon}
    (hstored : l.Stored draft) {key : String} {c : Candidate}
    (hmem : c ∈ ((ofLexicon l).predicted request limit key).candidates) :
    key.toList <+: c.key.toList := by
  obtain ⟨rewritten, hpredicted, hextends⟩ := extends_foretold request limit l.toDictionary key
  rw [hpredicted] at hmem
  rcases hextends.of_mem (List.mem_of_mem_take hmem) with hold | ⟨hkey, -⟩
  · exact isPrefix_of_mem_foretold limit hstored hold
  · rw [hkey]
    exact List.prefix_rfl

/-! ### Operations -/

namespace Operation

/-- Whether an operation converts segments. -/
def Converts : Operation → Prop
  | .startConversion _ | .startConversionForRequest | .resizeSegment _ _ | .resizeSegments _ _ _
  | .freeSegment _ => True
  | .startPrediction _ | .startSuggestion _ | .commitSegment _ _ => False

/-- The key that an operation predicts words for. -/
def predictedKey? : Operation → Option String
  | .startPrediction key | .startSuggestion key => some key
  | _ => none

end Operation

variable {c request} {s t : Segments}

/-- An operation that converts ends with converting a state that has the same limit. -/
theorem exists_convert_eq {operation : Operation} (hconverts : operation.Converts)
    (hdone : operation.apply c request s = (t, .ok ())) :
    ∃ u : Segments, t = c.convert request u ∧
      u.maxConversionCandidates = s.maxConversionCandidates := by
  have hstart : ∀ key, c.startConversion request s key = (t, .ok ()) →
      ∃ u : Segments, t = c.convert request u ∧
        u.maxConversionCandidates = s.maxConversionCandidates := by
    intro key hdone
    rw [startConversion] at hdone
    split at hdone
    · exact absurd hdone (Segments.refused_ne_done _)
    · exact ⟨_, (Segments.done_inj.mp hdone).symm, rfl⟩
  cases operation with
  | startConversion key => exact hstart key hdone
  | startConversionForRequest =>
    rw [Operation.apply, startConversionForRequest] at hdone
    split at hdone
    · exact absurd hdone (Segments.refused_ne_done _)
    · exact hstart _ hdone
  | startPrediction key => exact hconverts.elim
  | startSuggestion key => exact hconverts.elim
  | commitSegment segment candidate => exact hconverts.elim
  | resizeSegment segment offset =>
    obtain ⟨u, houtcome, rfl⟩ := thenConvert_eq_ok hdone
    obtain ⟨-, -, -, -, -, -, -, -, rfl⟩ := Segments.exists_position_of_resizeSegment houtcome
    exact ⟨_, rfl, rfl⟩
  | resizeSegments start count sizes =>
    obtain ⟨u, houtcome, rfl⟩ := thenConvert_eq_ok hdone
    obtain ⟨-, -, -, -, -, -, -, rfl⟩ := Segments.exists_position_of_resizeSegments houtcome
    exact ⟨_, rfl, rfl⟩
  | freeSegment segment =>
    obtain ⟨u, houtcome, rfl⟩ := thenConvert_eq_ok hdone
    obtain ⟨-, -, -, rfl⟩ := Segments.exists_position_of_freeSegment houtcome
    exact ⟨_, rfl, rfl⟩

theorem mem_reconvert_of_mem_convert {segment : Segment}
    (hmem : segment ∈ (c.convert request s).conversionSegments) :
    segment ∈ c.reconvert request s.maxConversionCandidates "" s.conversionSegments := by
  rw [convert_eq, Segments.conversionSegments_of_append rfl
    fun _ ↦ Segments.committed_of_mem_history s] at hmem
  exact (List.dropWhile_sublist _).subset hmem

/-- An operation that predicts leaves the predicted segment. -/
theorem conversionSegments_of_predictedKey? {d : Dictionary} {operation : Operation} {key : String}
    (hpredicts : operation.predictedKey? = some key)
    (hdone : operation.apply (ofDictionary d) request s = (t, .ok ())) :
    t.conversionSegments = [(ofDictionary d).predicted request s.maxPredictionCandidates key] := by
  have hpredict : ∀ type, (ofDictionary d).predict request type s key = (t, .ok ()) →
      t.conversionSegments =
        [(ofDictionary d).predicted request s.maxPredictionCandidates key] := by
    intro type hdone
    rw [predict] at hdone
    split at hdone
    · exact absurd hdone (Segments.refused_ne_done _)
    have hopen := type_predicted request s.maxPredictionCandidates d key
    rw [← Segments.done_inj.mp hdone]
    generalize (ofDictionary d).predicted request s.maxPredictionCandidates key = segment at hopen
    refine Segments.conversionSegments_eq rfl (fun _ ↦ Segments.committed_of_mem_history s)
      (List.forall_mem_singleton.mpr ?_)
    rw [Segments.committed, hopen]
    rfl
  cases operation with
  | startPrediction other =>
    obtain rfl := Option.some.inj hpredicts
    exact hpredict .prediction hdone
  | startSuggestion other =>
    obtain rfl := Option.some.inj hpredicts
    exact hpredict .suggestion hdone
  | _ => exact absurd hpredicts (by simp [Operation.predictedKey?])

/-- A lexicon that was written to a data set with any other regions is opened again, and an
operation of its converter is carried out, under any request and in any state. If it converts, each
free segment, and each with a set boundary, has ranked candidates within the limit: the first ones
of a list in which each surface offered for its key stands at the least of its costs. If it
predicts, the only segment has ranked candidates within the limit, and the keys of all of them begin
with the key that was typed. -/
theorem ranked_of_operation (draft : Lexicon.Draft) (magic : List UInt8)
    (regions : List DataSet.Draft.Region) (alignment : ℕ) (before target : DataSet.Draft)
    (hbefore : (DataSet.Draft.empty magic).addAll regions = (before, .ok ()))
    (hwritten : draft.writeTo before alignment = (target, .ok ()))
    (hsize : target.toBytes.length < UInt64.size) :
    ∃ blob l, DataSet.Blob.ofBytes target.toBytes magic = .ok blob ∧
      Lexicon.ofBlob blob = .ok l ∧
      ∀ (request : ConversionRequest) (operation : Operation) (s t : Segments),
        operation.apply (ofLexicon l) request s = (t, .ok ()) →
        (operation.Converts → ∀ segment ∈ t.conversionSegments,
          segment.type = .free ∨ segment.type = .fixedBoundary →
            Candidate.Ranked segment.candidates ∧
            segment.candidates.length ≤ s.maxConversionCandidates ∧
            ∃ full, segment.CutFrom draft request s.maxConversionCandidates full) ∧
        ∀ key, operation.predictedKey? = some key →
          ∃ segment, t.conversionSegments = [segment] ∧
            Candidate.Ranked segment.candidates ∧
            segment.candidates.length ≤ s.maxPredictionCandidates ∧
            ∀ c ∈ segment.candidates, key.toList <+: c.key.toList := by
  obtain ⟨blob, l, hblob, hopen, hstored, hempty⟩ :=
    Lexicon.exists_stored_of_writeTo hbefore hwritten hsize
  refine ⟨blob, l, hblob, hopen, fun request operation s t hdone ↦
    ⟨fun hconverts segment hmem htype ↦ ?_, fun key hpredicts ↦ ?_⟩⟩
  · obtain ⟨u, rfl, hlimit⟩ := exists_convert_eq hconverts hdone
    obtain ⟨filled, hfilled, rfl⟩ :=
      exists_refresh_of_mem_reconvert _ _ _ (mem_reconvert_of_mem_convert hmem) htype
    rw [hlimit]
    obtain ⟨full, hcut⟩ :=
      exists_cutFrom_refresh request s.maxConversionCandidates hstored hempty hfilled
    refine ⟨?_, ?_, full, hcut⟩
    · rw [hcut.candidates_eq]
      exact hcut.ranked.take _
    · rw [hcut.candidates_eq]
      exact List.length_take_le _ _
  · obtain ⟨hranked, hlength⟩ :=
      ranked_predicted request s.maxPredictionCandidates (ranksFindings_toDictionary l) key
    exact ⟨_, conversionSegments_of_predictedKey? hpredicts hdone, hranked, hlength,
      fun c hc ↦ isPrefix_of_mem_predicted request _ hstored hc⟩

/-- With modifiers ignored, the word of `かき` is a candidate for `がき`, up to the limit; for `か` all
that is suggested begins with it. -/
theorem ranked_of_operation_voiced :
    (DataSet.Draft.empty [0xEF]).addAll [] = (.empty [0xEF], .ok ()) ∧
      Lexicon.voicedReadings.writeTo (.empty [0xEF]) 32 = (Lexicon.voicedTarget, .ok ()) ∧
      Lexicon.voicedTarget.toBytes.length < UInt64.size ∧
      ∃ blob l, DataSet.Blob.ofBytes Lexicon.voicedTarget.toBytes [0xEF] = .ok blob ∧
        Lexicon.ofBlob blob = .ok l ∧
        (∃ t, (ofLexicon l).startConversion ignoringModifiers .empty "がき" = (t, .ok ()) ∧
          ∀ segment ∈ t.conversionSegments, segment.type = .free → segment.key = "がき" →
            ∃ full : List Candidate, segment.candidates = full.take 200 ∧
              ∃ c ∈ full, c.value = "柿") ∧
        ∃ t segment, (ofLexicon l).startSuggestion {} .empty "か" = (t, .ok ()) ∧
          t.conversionSegments = [segment] ∧ ∀ c ∈ segment.candidates, ['か'] <+: c.key.toList := by
  obtain ⟨hwritten, hsize⟩ := Lexicon.writeTo_voicedReadings
  obtain ⟨blob, l, hblob, hopen, hranked⟩ := ranked_of_operation Lexicon.voicedReadings [0xEF] [] 32
    _ _ rfl hwritten hsize
  refine ⟨rfl, hwritten, hsize, blob, l, hblob, hopen, ?_, ?_⟩
  · have hdone : (Operation.startConversion "がき").apply (ofLexicon l) ignoringModifiers .empty =
        (((ofLexicon l).startConversion ignoringModifiers .empty "がき").1, .ok ()) := by
      rw [Operation.apply, startConversion, if_neg (by decide)]
      rfl
    refine ⟨_, hdone, fun segment hmem hfree hkey ↦ ?_⟩
    obtain ⟨-, -, full, hcut⟩ := (hranked _ _ _ _ hdone).1 trivial segment hmem (.inl hfree)
    refine ⟨full, hcut.candidates_eq, hcut.exists_mem "柿" ⟨1501, .inr ⟨rfl, "かき", ?_⟩⟩⟩
    rw [hkey]
    exact ⟨by decide, ⟨"柿", 1, 0, 0⟩, by decide, rfl, rfl⟩
  · have hdone : (Operation.startSuggestion "か").apply (ofLexicon l) {} .empty =
        (((ofLexicon l).startSuggestion {} .empty "か").1, .ok ()) := by
      rw [Operation.apply, startSuggestion, predict, if_neg (by decide)]
      rfl
    obtain ⟨segment, hsegment, -, -, hkeys⟩ := (hranked _ _ _ _ hdone).2 "か" rfl
    exact ⟨_, segment, hdone, hsegment, hkeys⟩

end Converter

end KanaKanji
