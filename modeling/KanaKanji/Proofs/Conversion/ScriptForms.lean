import Mathlib
import KanaKanji.Proofs.Conversion.Fallbacks

/-!
# Script forms are appended once

A rewriter that appends a form of the key (`Rewriter.AppendsForm`) does nothing where a candidate
has that value, and otherwise puts the value behind all candidates. So a run of such rewriters
leaves every form among the values (`form_mem_runAll`), and tells that it changed the segment just
if there are more candidates than before (`tells_runAll`). Where all forms are there a run changes
nothing (`runAll_eq_self`), and a first run puts them there.

`runAll_scripts_once` says this of the rewriters for hiragana and katakana, together with what
`Segment.Extends` says of the candidates that are appended.
-/

set_option autoImplicit false

namespace KanaKanji

/-! ### What is appended -/

namespace Segment.Extends

variable {values : List String} {s t : Segment}

/-- The segment has only candidates more, behind the others. Their values are among those allowed,
differ from each other, and were not there before. -/
theorem exists_appended (hextends : s.Extends values t) :
    ∃ appended, t = { s with candidates := s.candidates ++ appended } ∧
      (appended.map Candidate.value).Nodup ∧
      ∀ d ∈ appended, d.value ∈ values ∧ d.value ∉ s.candidates.map Candidate.value := by
  induction hextends with
  | refl s => exact ⟨[], by rw [List.append_nil], List.nodup_nil, by simp⟩
  | @append s t c hkey hvalue hfresh hcost _ ih =>
    obtain ⟨appended, rfl, hnodup, hnew⟩ := ih
    have hvalues : (s.pushBack c).candidates.map Candidate.value =
        s.candidates.map Candidate.value ++ [c.value] := by
      rw [pushBack, List.map_append, List.map_singleton]
    simp only [hvalues, List.mem_append, not_or, List.mem_singleton] at hnew
    refine ⟨c :: appended, ?_, ?_, List.forall_mem_cons.mpr ⟨⟨hvalue, hfresh⟩, fun d hd ↦ ?_⟩⟩
    · rw [pushBack, List.append_assoc, List.singleton_append]
    · rw [List.map_cons, List.nodup_cons]
      refine ⟨fun hmem ↦ ?_, hnodup⟩
      obtain ⟨d, hd, hsame⟩ := List.mem_map.mp hmem
      exact (hnew d hd).2.2 hsame
    · exact ⟨(hnew d hd).1, (hnew d hd).2.1⟩

/-- There is no candidate more than there are values. -/
theorem length_appended_le {appended : List Candidate}
    (hextends : s.Extends values { s with candidates := s.candidates ++ appended }) :
    appended.length ≤ values.length := by
  obtain ⟨others, hothers, hnodup, hnew⟩ := hextends.exists_appended
  obtain rfl : appended = others :=
    List.append_cancel_left (congrArg Segment.candidates hothers)
  have hsubset : appended.map Candidate.value ⊆ values := by
    intro value hvalue
    obtain ⟨d, hd, rfl⟩ := List.mem_map.mp hvalue
    exact (hnew d hd).1
  rw [← List.length_map Candidate.value]
  exact (hnodup.subperm hsubset).length_le

/-- A candidate behind those of before has a value that no candidate in front of it has, and a cost
that is not below theirs. -/
theorem below_of_rank (hextends : s.Extends values t) {rank : ℕ} {c : Candidate}
    (hrank : s.candidates.length ≤ rank) (hc : t.candidates[rank]? = some c) :
    ∀ d ∈ t.candidates.take rank, d.value ≠ c.value ∧ d.cost.toInt ≤ c.cost.toInt := by
  induction hextends with
  | refl s =>
    rw [List.getElem?_eq_none hrank] at hc
    exact absurd hc (by simp)
  | @append s t e hkey hvalue hfresh hcost hrest ih =>
    have hlength : (s.pushBack e).candidates.length = s.candidates.length + 1 := by
      rw [pushBack, List.length_append, List.length_singleton]
    rcases hrank.eq_or_lt with rfl | hbehind
    · -- The candidate is the one that was appended first.
      obtain ⟨more, hmore⟩ := hrest.isPrefix_candidates
      rw [← hmore, pushBack, List.append_assoc] at hc ⊢
      rw [List.getElem?_append_right le_rfl, Nat.sub_self] at hc
      obtain rfl : e = c := Option.some.inj hc
      rw [List.take_left]
      exact fun d hd ↦ ⟨fun hsame ↦ hfresh (hsame ▸ List.mem_map_of_mem hd), hcost d hd⟩
    · exact ih (hlength ▸ hbehind) hc

end Segment.Extends

namespace Rewriter

variable {s : Segment} {value : String} {penalty : Int32} {form : String → String} {r : Rewriter}
  {rewriters : List Rewriter} {request : ConversionRequest}

/-! ### One form -/

theorem hasValue_iff : hasValue s value = true ↔ value ∈ s.candidates.map Candidate.value := by
  simp [hasValue]

theorem appendFallback_of_mem (hvalue : value ∈ s.candidates.map Candidate.value) :
    appendFallback s value penalty = (s, false) := by
  rw [appendFallback, hasValue_iff.mpr hvalue, Bool.or_true, if_pos rfl]

theorem mem_appendFallback (hne : value ≠ "") :
    value ∈ (appendFallback s value penalty).1.candidates.map Candidate.value := by
  by_cases hvalue : value ∈ s.candidates.map Candidate.value
  · rwa [appendFallback_of_mem hvalue]
  · have happends : (value.isEmpty || hasValue s value) = false := by
      rw [Bool.or_eq_false_iff, ← Bool.not_eq_true, ← Bool.not_eq_true, hasValue_iff]
      exact ⟨by simpa using hne, hvalue⟩
    rw [appendFallback, happends]
    simp [Segment.pushBack, Candidate.withCost, Candidate.new, Candidate.withContent]

/-- The outcome tells whether the segment was changed: it is the segment itself, or it is said to be
changed and has more candidates. -/
def Tells (s : Segment) (outcome : Segment × Bool) : Prop :=
  outcome = (s, false) ∨
    outcome.2 = true ∧ s.candidates.length < outcome.1.candidates.length

theorem Tells.changed_iff {outcome : Segment × Bool} (htells : Tells s outcome) :
    outcome.2 = true ↔ outcome.1 ≠ s := by
  rcases htells with rfl | ⟨hchanged, hlength⟩
  · simp
  · refine iff_of_true hchanged fun hsame ↦ ?_
    rw [hsame] at hlength
    exact lt_irrefl _ hlength

theorem tells_appendFallback (s : Segment) (value : String) (penalty : Int32) :
    Tells s (appendFallback s value penalty) := by
  rw [appendFallback]
  split
  · exact .inl rfl
  · exact .inr ⟨rfl, by simp [Segment.pushBack]⟩

/-! ### A run -/

/-- The rewriter is never left out, and appends one form of the key. -/
structure AppendsForm (r : Rewriter) (form : String → String) : Prop where
  isSlow_eq : r.isSlow = false
  exists_penalty : ∃ penalty : Int32, 0 ≤ penalty.toInt ∧
    ∀ (request : ConversionRequest) (s : Segment),
      r.rewrite request s = appendFallback s (form s.key) penalty

theorem appendsForm_hiragana : hiragana.AppendsForm Script.toHiragana :=
  ⟨rfl, 5000, by decide, fun _ _ ↦ by rw [hiragana]⟩

theorem appendsForm_katakana : katakana.AppendsForm Script.toKatakana :=
  ⟨rfl, 10000, by decide, fun _ _ ↦ by rw [katakana]⟩

theorem runAll_cons_of_not_slow (hslow : r.isSlow = false) (rest : List Rewriter) (s : Segment) :
    runAll request (r :: rest) s =
      ((runAll request rest (r.rewrite request s).1).1,
        (r.rewrite request s).2 || (runAll request rest (r.rewrite request s).1).2) := by
  simp [runAll, hslow]

/-- A run tells whether it changed the segment, since each of its rewriters does. -/
theorem tells_runAll (hforms : ∀ r ∈ rewriters, ∃ form, r.AppendsForm form) (s : Segment) :
    Tells s (runAll request rewriters s) := by
  induction rewriters generalizing s with
  | nil => exact .inl rfl
  | cons r rest ih =>
    obtain ⟨⟨form, hform⟩, hrest⟩ := List.forall_mem_cons.mp hforms
    obtain ⟨penalty, -, hrewrite⟩ := hform.exists_penalty
    have hfirst := tells_appendFallback s (form s.key) penalty
    rw [← hrewrite request] at hfirst
    have hlater := ih hrest (r.rewrite request s).1
    rw [runAll_cons_of_not_slow hform.isSlow_eq]
    rcases hfirst with hsame | ⟨hchanged, hlength⟩
    · rw [hsame] at hlater ⊢
      simpa using hlater
    · refine .inr ⟨by rw [hchanged, Bool.true_or], hlength.trans_le ?_⟩
      rcases hlater with hsame | ⟨-, hmore⟩
      · rw [hsame]
      · exact hmore.le

/-- Where all forms are among the values a run changes nothing. -/
theorem runAll_eq_self (hforms : ∀ r ∈ rewriters, ∃ form, r.AppendsForm form ∧
    form s.key ∈ s.candidates.map Candidate.value) :
    runAll request rewriters s = (s, false) := by
  induction rewriters with
  | nil => rfl
  | cons r rest ih =>
    obtain ⟨⟨form, hform, hvalue⟩, hrest⟩ := List.forall_mem_cons.mp hforms
    obtain ⟨penalty, -, hrewrite⟩ := hform.exists_penalty
    rw [runAll_cons_of_not_slow hform.isSlow_eq, hrewrite, appendFallback_of_mem hvalue, ih hrest]
    rfl

/-! ### The two scripts -/

theorem exists_appendsForm (hr : r = .hiragana ∨ r = .katakana) :
    ∃ form, r.AppendsForm form ∧ ∀ key, form key ∈ scriptForms key := by
  rcases hr with rfl | rfl
  · exact ⟨_, appendsForm_hiragana, fun _ ↦ by simp [scriptForms]⟩
  · exact ⟨_, appendsForm_katakana, fun _ ↦ by simp [scriptForms]⟩

theorem key_rewrite_of_appendsForm (hform : r.AppendsForm form) (request : ConversionRequest)
    (s : Segment) : (r.rewrite request s).1.key = s.key := by
  obtain ⟨penalty, hpenalty, hrewrite⟩ := hform.exists_penalty
  rw [hrewrite]
  exact (extends_appendFallback (List.mem_singleton_self _) hpenalty s).key_eq

/-- A run leaves the form of each of its rewriters among the values: the rewriter itself puts it
there, and the others only append. -/
theorem form_mem_runAll (hscripts : ∀ r ∈ rewriters, r = .hiragana ∨ r = .katakana)
    (hr : r ∈ rewriters) (hform : r.AppendsForm form) (hne : form s.key ≠ "") :
    form s.key ∈ (runAll request rewriters s).1.candidates.map Candidate.value := by
  induction rewriters generalizing s with
  | nil => exact absurd hr List.not_mem_nil
  | cons first rest ih =>
    obtain ⟨hfirst, hrest⟩ := List.forall_mem_cons.mp hscripts
    obtain ⟨firstForm, hfirstForm, -⟩ := exists_appendsForm hfirst
    rw [runAll_cons_of_not_slow hfirstForm.isSlow_eq]
    rcases List.mem_cons.mp hr with rfl | hr
    · obtain ⟨penalty, -, hrewrite⟩ := hform.exists_penalty
      have happended : form s.key ∈ (r.rewrite request s).1.candidates.map Candidate.value := by
        rw [hrewrite]
        exact mem_appendFallback hne
      have hlater := extends_runAll_scripts hrest request (r.rewrite request s).1
      exact (hlater.isPrefix_candidates.map Candidate.value).subset happended
    · have hkey := key_rewrite_of_appendsForm hfirstForm request s
      rw [← hkey] at hne ⊢
      exact ih hrest hr hne

theorem mapChars_ne_empty {key : String} (hkey : key ≠ "") (f : Char → Char) :
    Script.mapChars f key ≠ "" := by
  rw [ne_eq, ← String.toList_eq_nil_iff, Script.toList_mapChars, List.map_eq_nil_iff,
    String.toList_eq_nil_iff]
  exact hkey

/-- Rewriters for the two scripts, both of them and in any order, are run on a segment with a key.
The candidates that were there stay in front, and at most two come behind them. Each of these has a
value that none in front of it has, at a cost that is not below theirs; both forms of the key are
among the values then. Key, type and meta candidates stay, and the run tells that it changed the
segment just if it did. Another run changes nothing and says so. -/
theorem runAll_scripts_once {rewriters : List Rewriter}
    (hscripts : ∀ r ∈ rewriters, r = .hiragana ∨ r = .katakana) (hhiragana : .hiragana ∈ rewriters)
    (hkatakana : .katakana ∈ rewriters) {s : Segment} (hkey : s.key ≠ "")
    (request : ConversionRequest) :
    ∃ after changed, runAll request rewriters s = (after, changed) ∧
      (∃ appended, after = { s with candidates := s.candidates ++ appended } ∧
        appended.length ≤ 2) ∧
      (∀ rank c, s.candidates.length ≤ rank → after.candidates[rank]? = some c →
        ∀ d ∈ after.candidates.take rank, d.value ≠ c.value ∧ d.cost.toInt ≤ c.cost.toInt) ∧
      Script.toHiragana s.key ∈ after.candidates.map Candidate.value ∧
      Script.toKatakana s.key ∈ after.candidates.map Candidate.value ∧
      (changed = true ↔ after ≠ s) ∧
      ∀ again : ConversionRequest, runAll again rewriters after = (after, false) := by
  have hextends := extends_runAll_scripts hscripts request s
  have htells : Tells s (runAll request rewriters s) := by
    refine tells_runAll (fun r hr ↦ ?_) s
    obtain ⟨form, hform, -⟩ := exists_appendsForm (hscripts r hr)
    exact ⟨form, hform⟩
  have hiraganaForm : Script.toHiragana s.key ∈
      (runAll request rewriters s).1.candidates.map Candidate.value :=
    form_mem_runAll hscripts hhiragana appendsForm_hiragana (mapChars_ne_empty hkey _)
  have katakanaForm : Script.toKatakana s.key ∈
      (runAll request rewriters s).1.candidates.map Candidate.value :=
    form_mem_runAll hscripts hkatakana appendsForm_katakana (mapChars_ne_empty hkey _)
  refine ⟨_, _, rfl, ?_, fun rank c ↦ hextends.below_of_rank, hiraganaForm, katakanaForm,
    htells.changed_iff, fun again ↦ runAll_eq_self fun r hr ↦ ?_⟩
  · obtain ⟨appended, happended, -, -⟩ := hextends.exists_appended
    rw [happended] at hextends ⊢
    exact ⟨appended, rfl, hextends.length_appended_le⟩
  · rcases hscripts r hr with rfl | rfl
    · exact ⟨_, appendsForm_hiragana, by rwa [hextends.key_eq]⟩
    · exact ⟨_, appendsForm_katakana, by rwa [hextends.key_eq]⟩

/-- A segment with a key in both scripts and a candidate that costs nearly as much as can be. -/
def mixedScripts : Segment where
  key := "カな"
  candidates :=
    [(Candidate.new "カな" "仮名").withCost Int32.maxValue, (Candidate.new "カな" "かな").withCost (-5)]

/-- The katakana form comes behind both candidates, and the hiragana form, which is one of them,
does not come again. -/
theorem runAll_scripts_once_mixedScripts :
    ∃ after, runAll {} [.katakana, .hiragana] mixedScripts = (after, true) ∧
      after.candidates.map Candidate.value = ["仮名", "かな", "カナ"] ∧
      runAll {} [.katakana, .hiragana] after = (after, false) := by
  have hscripts : ∀ r ∈ [Rewriter.katakana, .hiragana], r = .hiragana ∨ r = .katakana := by
    simp
  obtain ⟨after, changed, hrun, -, -, -, -, hchanged, hagain⟩ :=
    runAll_scripts_once hscripts (by simp) (by simp) (s := mixedScripts) (by decide) {}
  have hafter : (runAll {} [.katakana, .hiragana] mixedScripts).1 = after := congrArg Prod.fst hrun
  have hvalues : after.candidates.map Candidate.value = ["仮名", "かな", "カナ"] := by
    rw [← hafter]
    decide
  obtain rfl : changed = true := hchanged.mpr fun hsame ↦ by
    rw [hsame] at hvalues
    exact absurd hvalues (by decide)
  exact ⟨after, hrun, hvalues, hagain {}⟩

end Rewriter

end KanaKanji
