import Mathlib
import KanaKanji.Conversion.Converter
import KanaKanji.Proofs.Lists
import KanaKanji.Proofs.Ranking

/-!
# Filled segments

A segment is filled (`Segment.Filled`) if it has a key and candidates, and if every candidate and
every meta candidate writes that key. A converter fills a segment whatever its dictionary answers
(`filled_fill`): where the dictionary has no word the key stands for itself, and a word that is
found under another reading still becomes a candidate for the key. The kana rewriters keep a segment
filled (`runAll_respectful`), and so do a limit that leaves one candidate (`Filled.truncate`),
ranking a candidate first (`Filled.of_move?`) and choosing one (`Filled.chosen`).
-/

set_option autoImplicit false

namespace KanaKanji

namespace Segment

/-- The segment has a key and candidates, and all its candidates write its key. -/
structure Filled (s : Segment) : Prop where
  key_ne_empty : s.key ≠ ""
  candidates_ne_nil : s.candidates ≠ []
  candidate_key : ∀ candidate ∈ s.candidates ++ s.metaCandidates, candidate.key = s.key

variable {s t : Segment}

/-! ### Reordering candidates -/

theorem mem_of_mem_moveElement {α : Type} {xs : List α} {source target : ℕ} {a : α}
    (hmem : a ∈ moveElement xs source target) : a ∈ xs := by
  rw [moveElement] at hmem
  split at hmem
  · next b hb =>
    rcases List.eq_or_mem_of_mem_insertIdx hmem with rfl | herased
    · exact List.mem_of_getElem? hb
    · exact List.mem_of_mem_eraseIdx herased
  · exact hmem

theorem length_moveElement {α : Type} {xs : List α} {source target : ℕ}
    (htarget : target < xs.length) : (moveElement xs source target).length = xs.length := by
  rw [moveElement]
  split
  · next b hb =>
    have hsource : source < xs.length := (List.getElem?_eq_some_iff.mp hb).1
    rw [List.length_insertIdx, List.length_eraseIdx_of_lt hsource, if_pos (by omega)]
    omega
  · rfl

theorem mem_of_candidate? {i : ℤ} {candidate : Candidate}
    (hcandidate : s.candidate? i = some candidate) :
    candidate ∈ s.candidates ++ s.metaCandidates := by
  rw [candidate?] at hcandidate
  split at hcandidate
  · exact List.mem_append_right _ (List.mem_of_getElem? hcandidate)
  · exact List.mem_append_left _ (List.mem_of_getElem? hcandidate)

theorem key_of_move? {source : ℤ} {target : ℕ} (hmove : s.move? source target = some t) :
    t.key = s.key ∧ t.type = s.type := by
  rw [move?] at hmove
  split at hmove
  · obtain ⟨candidate, -, hinsert⟩ := Option.bind_eq_some_iff.mp hmove
    rw [insert?] at hinsert
    split at hinsert
    · obtain rfl := Option.some.inj hinsert
      exact ⟨rfl, rfl⟩
    · exact absurd hinsert (by simp)
  · split at hmove
    · obtain rfl := Option.some.inj hmove
      exact ⟨rfl, rfl⟩
    · exact absurd hmove (by simp)

/-- A candidate that is moved, or a copy of a meta candidate, writes the same key as before. -/
theorem Filled.of_move? (hfilled : s.Filled) {source : ℤ} {target : ℕ}
    (hmove : s.move? source target = some t) : t.Filled := by
  have hkey := (key_of_move? hmove).1
  rw [move?] at hmove
  split at hmove
  · obtain ⟨candidate, hcandidate, hinsert⟩ := Option.bind_eq_some_iff.mp hmove
    rw [insert?] at hinsert
    split at hinsert
    case isFalse => exact absurd hinsert (by simp)
    case isTrue htarget =>
      obtain rfl := Option.some.inj hinsert
      refine ⟨hfilled.key_ne_empty, ?_, fun d hd ↦ ?_⟩
      · intro hnil
        have hlength := congrArg List.length hnil
        simp [List.length_insertIdx, htarget] at hlength
      · rcases List.mem_append.mp hd with hd | hd
        · rcases List.eq_or_mem_of_mem_insertIdx hd with rfl | hd
          · exact hfilled.candidate_key _ (mem_of_candidate? hcandidate)
          · exact hfilled.candidate_key d (List.mem_append_left _ hd)
        · exact hfilled.candidate_key d (List.mem_append_right _ hd)
  · split at hmove
    case isFalse => exact absurd hmove (by simp)
    case isTrue hranks =>
      obtain rfl := Option.some.inj hmove
      refine ⟨hfilled.key_ne_empty, ?_, fun d hd ↦ ?_⟩
      · rw [← List.length_pos_iff, length_moveElement hranks.2]
        omega
      · rcases List.mem_append.mp hd with hd | hd
        · exact hfilled.candidate_key d (List.mem_append_left _ (mem_of_mem_moveElement hd))
        · exact hfilled.candidate_key d (List.mem_append_right _ hd)

/-- A change to a candidate that keeps its key keeps the segment filled. -/
theorem Filled.modifyCandidate (hfilled : s.Filled) {f : Candidate → Candidate}
    (hf : ∀ candidate, (f candidate).key = candidate.key) (i : ℤ) :
    (s.modifyCandidate i f).Filled := by
  have hcandidates : ∀ d ∈ s.candidates, d.key = s.key := fun d hd ↦
    hfilled.candidate_key d (List.mem_append_left _ hd)
  have hmeta : ∀ d ∈ s.metaCandidates, d.key = s.key := fun d hd ↦
    hfilled.candidate_key d (List.mem_append_right _ hd)
  have hkept : ∀ ds : List Candidate, (∀ d ∈ ds, d.key = s.key) → ∀ j,
      ∀ d ∈ ds.modify j f, d.key = s.key := fun ds hds j ↦
    Lists.forall_mem_modify hds fun d hd ↦ (hf d).trans (hds d (List.mem_of_getElem? hd))
  rw [Segment.modifyCandidate]
  split
  · refine ⟨hfilled.key_ne_empty, hfilled.candidates_ne_nil, ?_⟩
    exact List.forall_mem_append.mpr ⟨hcandidates, hkept _ hmeta _⟩
  · refine ⟨hfilled.key_ne_empty, ?_, ?_⟩
    · rw [← List.length_pos_iff, List.length_modify]
      exact List.length_pos_iff.mpr hfilled.candidates_ne_nil
    · exact List.forall_mem_append.mpr ⟨hkept _ hcandidates _, hmeta⟩

/-- Choosing a candidate changes neither key nor what the candidates write. -/
theorem Filled.chosen (hfilled : s.Filled) (candidate : ℤ) (type : SegmentType) :
    (Segments.chosen s candidate type).Filled := by
  have hmoved : ((s.move? candidate 0).getD s).Filled := by
    rcases hmove : s.move? candidate 0 with _ | t
    · exact hfilled
    · exact hfilled.of_move? hmove
  have hkey : ∀ d : Candidate, (d.withAttributes .reranked).key = d.key := fun _ ↦ rfl
  have hmarked := hmoved.modifyCandidate hkey 0
  rw [Segments.chosen]
  split
  · exact ⟨hmoved.key_ne_empty, hmoved.candidates_ne_nil, hmoved.candidate_key⟩
  · exact ⟨hmarked.key_ne_empty, hmarked.candidates_ne_nil, hmarked.candidate_key⟩

theorem key_modifyCandidate (s : Segment) (i : ℤ) (f : Candidate → Candidate) :
    (s.modifyCandidate i f).key = s.key := by
  rw [modifyCandidate]
  split <;> rfl

theorem key_chosen (candidate : ℤ) (type : SegmentType) :
    (Segments.chosen s candidate type).key = s.key := by
  have hmoved : ((s.move? candidate 0).getD s).key = s.key := by
    rcases hmove : s.move? candidate 0 with _ | t
    · rfl
    · exact (key_of_move? hmove).1
  have hmarked := key_modifyCandidate ((s.move? candidate 0).getD s) 0 (·.withAttributes .reranked)
  rw [Segments.chosen]
  split
  · exact hmoved
  · exact hmarked.trans hmoved

/-! ### Adding and dropping candidates -/

theorem Filled.pushBack (hfilled : s.Filled) {candidate : Candidate}
    (hkey : candidate.key = s.key) : (s.pushBack candidate).Filled := by
  refine ⟨hfilled.key_ne_empty, by simp [Segment.pushBack], fun d hd ↦ ?_⟩
  simp only [Segment.pushBack, List.mem_append, List.mem_singleton] at hd
  rcases hd with (hd | rfl) | hd
  · exact hfilled.candidate_key d (List.mem_append_left _ hd)
  · exact hkey
  · exact hfilled.candidate_key d (List.mem_append_right _ hd)

theorem Filled.truncate (hfilled : s.Filled) {limit : ℕ} (hlimit : 1 ≤ limit) :
    (s.truncate limit).Filled := by
  refine ⟨hfilled.key_ne_empty, ?_, fun d hd ↦ hfilled.candidate_key d ?_⟩
  · have hpos := List.length_pos_iff.mpr hfilled.candidates_ne_nil
    rw [← List.length_pos_iff, Segment.truncate, List.length_take]
    omega
  · rcases List.mem_append.mp hd with hd | hd
    · exact List.mem_append_left _ (List.mem_of_mem_take hd)
    · exact List.mem_append_right _ hd

end Segment

/-! ### Rewriters -/

namespace Rewriter

/-- A rewriter that leaves key and type of a segment and keeps it filled. -/
structure Respectful (r : Rewriter) : Prop where
  key_rewrite : ∀ request s, (r.rewrite request s).1.key = s.key
  type_rewrite : ∀ request s, (r.rewrite request s).1.type = s.type
  filled_rewrite : ∀ request s, s.Filled → (r.rewrite request s).1.Filled

theorem respectful_appendFallback (f : String → String) (penalty : Int32) (isSlow : Bool) :
    Respectful ⟨fun _ s ↦ appendFallback s (f s.key) penalty, isSlow⟩ where
  key_rewrite request s := by
    simp only [appendFallback]
    split <;> rfl
  type_rewrite request s := by
    simp only [appendFallback]
    split <;> rfl
  filled_rewrite request s hfilled := by
    simp only [appendFallback]
    split
    · exact hfilled
    · exact hfilled.pushBack rfl

theorem respectful_katakana : Respectful katakana :=
  respectful_appendFallback Script.toKatakana 10000 false

theorem respectful_hiragana : Respectful hiragana :=
  respectful_appendFallback Script.toHiragana 5000 false

theorem runAll_cons (request : ConversionRequest) (r : Rewriter) (rest : List Rewriter)
    (s : Segment) :
    (runAll request (r :: rest) s).1 =
      (runAll request rest
        (if r.isSlow && request.skipSlowRewriters then s else (r.rewrite request s).1)).1 := by
  by_cases hskip : (r.isSlow && request.skipSlowRewriters) = true
  · simp only [runAll, if_pos hskip]
  · simp only [runAll, if_neg hskip]

/-- Respectful rewriters, run one after another, leave key and type of a segment and keep it
filled; those that are left out change nothing. -/
theorem runAll_respectful {rewriters : List Rewriter} (hrespectful : ∀ r ∈ rewriters, r.Respectful)
    (request : ConversionRequest) (s : Segment) :
    (runAll request rewriters s).1.key = s.key ∧ (runAll request rewriters s).1.type = s.type ∧
      (s.Filled → (runAll request rewriters s).1.Filled) := by
  induction rewriters generalizing s with
  | nil => exact ⟨rfl, rfl, id⟩
  | cons r rest ih =>
    have hr : r.Respectful := hrespectful r List.mem_cons_self
    have hrest := ih fun r' hr' ↦ hrespectful r' (List.mem_cons_of_mem _ hr')
    rw [runAll_cons]
    split
    · exact hrest s
    · obtain ⟨hkey, htype, hfilled⟩ := hrest (r.rewrite request s).1
      refine ⟨hkey.trans (hr.key_rewrite request s), htype.trans (hr.type_rewrite request s), ?_⟩
      exact fun h ↦ hfilled (hr.filled_rewrite request s h)

end Rewriter

/-! ### Filling -/

namespace Converter

variable (c : Converter) (request : ConversionRequest)

theorem candidatesFor_ne_nil (key : String) : c.candidatesFor request key ≠ [] := by
  unfold candidatesFor
  extract_lets all ranked
  by_cases hranked : ranked.isEmpty
  · rw [if_pos hranked]
    exact List.cons_ne_nil _ _
  · rw [if_neg hranked]
    exact fun hnil ↦ hranked (List.isEmpty_iff.mpr hnil)

/-- Whatever the dictionary finds, its words become candidates for the key that was looked for. -/
theorem key_of_mem_candidatesFor {key : String} {candidate : Candidate}
    (hmem : candidate ∈ c.candidatesFor request key) : candidate.key = key := by
  unfold candidatesFor at hmem
  extract_lets all ranked at hmem
  by_cases hranked : ranked.isEmpty
  · rw [if_pos hranked] at hmem
    rw [List.mem_singleton.mp hmem]
    rfl
  · rw [if_neg hranked] at hmem
    have hall := Ranking.mem_sortOn.mp (Ranking.mem_of_mem_firstOfEach hmem)
    rcases List.mem_append.mp hall with hexact | hvariant
    · obtain ⟨word, -, rfl⟩ := List.mem_map.mp hexact
      rfl
    · split at hvariant
      · obtain ⟨found, -, hwords⟩ := List.mem_flatMap.mp hvariant
        obtain ⟨word, -, rfl⟩ := List.mem_map.mp hwords
        rfl
      · exact absurd hvariant List.not_mem_nil

/-- Any segment with a key is filled. -/
theorem filled_fill {s : Segment} (hkey : s.key ≠ "") : (c.fill request s).Filled := by
  refine ⟨hkey, c.candidatesFor_ne_nil request s.key, fun d hd ↦ ?_⟩
  rcases List.mem_append.mp hd with hd | hd
  · exact c.key_of_mem_candidatesFor request hd
  · simp only [fill, List.mem_cons, List.not_mem_nil, or_false] at hd
    rcases hd with rfl | rfl
    · rfl
    · rfl

end Converter

end KanaKanji
