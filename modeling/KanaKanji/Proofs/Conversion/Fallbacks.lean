import Mathlib
import KanaKanji.Proofs.Conversion.Filled
import KanaKanji.Proofs.Ranking

/-!
# Candidates that rewriters append

The rewriters for the two scripts append a form of the key, if no candidate has that value, at a
cost that is not below any other. `Segment.Extends` is what a run of such rewriters does to a
segment: step by step a candidate goes behind the others. So the candidates that were there stay in
front (`Extends.isPrefix_candidates`), and candidates that are ranked (`Candidate.Ranked`) stay
ranked (`Extends.ranked`).

Costs are held within 32 bits. Adding a penalty stops at the greatest cost, but never comes out
lower (`toInt_le_addCost`).
-/

set_option autoImplicit false

namespace KanaKanji

/-! ### Costs -/

theorem toInt_addCost (a b : Int32) :
    (addCost a b).toInt =
      max Int32.minValue.toInt (min Int32.maxValue.toInt (a.toInt + b.toInt)) := by
  rw [addCost]
  have hmax : Int32.maxValue.toInt = 2 ^ 31 - 1 := Int32.toInt_maxValue
  apply Int32.toInt_ofInt_of_le
  · exact le_max_left _ _
  · have hmin : Int32.minValue.toInt = - 2 ^ 31 := Int32.toInt_minValue
    omega

/-- A penalty makes no cost lower. -/
theorem toInt_le_addCost (a : Int32) {penalty : Int32} (hpenalty : 0 ≤ penalty.toInt) :
    a.toInt ≤ (addCost a penalty).toInt := by
  rw [toInt_addCost]
  exact le_max_of_le_right (le_min (Int32.toInt_le a) (le_add_of_nonneg_right hpenalty))

namespace Rewriter

/-- The running maximum is not below where it began, and not below what it has passed. -/
theorem le_foldl_worst (candidates : List Candidate) (start : Int32) :
    let worst := candidates.foldl (fun worst d ↦ if worst ≤ d.cost then d.cost else worst) start
    start.toInt ≤ worst.toInt ∧ ∀ c ∈ candidates, c.cost.toInt ≤ worst.toInt := by
  induction candidates generalizing start with
  | nil => exact ⟨le_rfl, by simp⟩
  | cons first rest ih =>
    obtain ⟨hnext, hrest⟩ := ih (if start ≤ first.cost then first.cost else start)
    have hstep : start.toInt ≤ (if start ≤ first.cost then first.cost else start).toInt ∧
        first.cost.toInt ≤ (if start ≤ first.cost then first.cost else start).toInt := by
      split
      · next hle => exact ⟨Int32.le_iff_toInt_le.mp hle, le_rfl⟩
      · next hlt =>
        rw [Int32.le_iff_toInt_le, not_le] at hlt
        exact ⟨le_rfl, hlt.le⟩
    exact ⟨hstep.1.trans hnext, List.forall_mem_cons.mpr ⟨hstep.2.trans hnext, hrest⟩⟩

/-- No candidate has a higher cost than the worst. -/
theorem cost_le_worstCost {s : Segment} {c : Candidate} (hmem : c ∈ s.candidates) :
    c.cost.toInt ≤ (worstCost s).toInt := by
  rw [worstCost]
  split
  · next hnil =>
    rw [hnil] at hmem
    exact absurd hmem List.not_mem_nil
  · next first rest hcons =>
    obtain ⟨hfirst, hrest⟩ := le_foldl_worst rest first.cost
    rw [hcons] at hmem
    rcases List.mem_cons.mp hmem with rfl | hmem
    · exact hfirst
    · exact hrest c hmem

end Rewriter

/-! ### Ranked candidates -/

/-- The candidates ascend in cost, and no two have one value. -/
structure Candidate.Ranked (candidates : List Candidate) : Prop where
  ascending : candidates.Pairwise fun c d ↦ c.cost.toInt ≤ d.cost.toInt
  distinct : (candidates.map Candidate.value).Nodup

namespace Candidate

variable {candidates : List Candidate}

theorem Ranked.sublist (hranked : Ranked candidates) {others : List Candidate}
    (hsublist : others.Sublist candidates) : Ranked others :=
  ⟨hranked.ascending.sublist hsublist, hranked.distinct.sublist (hsublist.map _)⟩

theorem Ranked.take (hranked : Ranked candidates) (limit : ℕ) : Ranked (candidates.take limit) :=
  hranked.sublist (List.take_sublist limit candidates)

theorem ranked_singleton (c : Candidate) : Ranked [c] :=
  ⟨List.pairwise_singleton _ _, List.nodup_singleton _⟩

/-- A new value goes behind the others at a cost that is not below theirs. -/
theorem Ranked.append_singleton (hranked : Ranked candidates) {c : Candidate}
    (hfresh : c.value ∉ candidates.map Candidate.value)
    (hcost : ∀ d ∈ candidates, d.cost.toInt ≤ c.cost.toInt) : Ranked (candidates ++ [c]) := by
  constructor
  · rw [List.pairwise_append]
    refine ⟨hranked.ascending, List.pairwise_singleton _ _, fun d hd e he ↦ ?_⟩
    rw [List.mem_singleton.mp he]
    exact hcost d hd
  · rw [List.map_append, List.map_singleton, List.nodup_append]
    refine ⟨hranked.distinct, List.nodup_singleton _, fun value hvalue other hother ↦ ?_⟩
    rw [List.mem_singleton.mp hother]
    exact fun hsame ↦ hfresh (hsame ▸ hvalue)

/-- What is sorted by the cost of its candidate, and of which each value keeps the first, gives
ranked candidates. -/
theorem ranked_map_firstOfEach {α : Type} {candidate : α → Candidate} {cost : α → ℤ}
    {value : α → String} (hcost : ∀ a, (candidate a).cost.toInt = cost a)
    (hvalue : ∀ a, (candidate a).value = value a) (xs : List α) :
    Ranked ((Ranking.firstOfEach value (Ranking.sortOn cost xs)).map candidate) := by
  constructor
  · simp only [List.pairwise_map, hcost]
    exact (Ranking.pairwise_sortOn _ _).sublist (Ranking.firstOfEach_sublist _ _)
  · rw [List.map_map, show Candidate.value ∘ candidate = value from funext hvalue]
    exact Ranking.nodup_map_firstOfEach _ _

/-- Sorted candidates of which each value keeps the first are ranked. -/
theorem ranked_firstOfEach_sortOn (candidates : List Candidate) :
    Ranked (Ranking.firstOfEach Candidate.value (Ranking.sortOn (·.cost.toInt) candidates)) := by
  rw [← List.map_id (Ranking.firstOfEach _ _)]
  exact ranked_map_firstOfEach (fun _ ↦ rfl) (fun _ ↦ rfl) candidates

/-- Of ranked candidates only one has a value. -/
theorem Ranked.eq_of_value_eq (hranked : Ranked candidates) {c d : Candidate}
    (hc : c ∈ candidates) (hd : d ∈ candidates) (hvalue : c.value = d.value) : c = d :=
  List.inj_on_of_nodup_map hranked.distinct hc hd hvalue

end Candidate

/-! ### Appending below -/

namespace Segment

/-- The segment has become another one by appending candidates for its key, one after another: each
with one of the values, which was not there yet, and at a cost that is not below any other. -/
inductive Extends (values : List String) : Segment → Segment → Prop
  | refl (s : Segment) : Extends values s s
  | append {s t : Segment} {c : Candidate} (hkey : c.key = s.key) (hvalue : c.value ∈ values)
    (hfresh : c.value ∉ s.candidates.map Candidate.value)
    (hcost : ∀ d ∈ s.candidates, d.cost.toInt ≤ c.cost.toInt)
    (hrest : Extends values (s.pushBack c) t) : Extends values s t

namespace Extends

variable {values : List String} {s t u : Segment}

theorem trans (hfirst : s.Extends values t) (hsecond : t.Extends values u) :
    s.Extends values u := by
  induction hfirst with
  | refl s => exact hsecond
  | append hkey hvalue hfresh hcost _ ih => exact .append hkey hvalue hfresh hcost (ih hsecond)

theorem key_eq (hextends : s.Extends values t) : t.key = s.key := by
  induction hextends with
  | refl s => rfl
  | append _ _ _ _ _ ih => exact ih

theorem type_eq (hextends : s.Extends values t) : t.type = s.type := by
  induction hextends with
  | refl s => rfl
  | append _ _ _ _ _ ih => exact ih

theorem isPrefix_candidates (hextends : s.Extends values t) : s.candidates <+: t.candidates := by
  induction hextends with
  | refl s => exact List.prefix_rfl
  | append _ _ _ _ _ ih => exact (List.prefix_append _ _).trans ih

theorem ranked (hextends : s.Extends values t) (hranked : Candidate.Ranked s.candidates) :
    Candidate.Ranked t.candidates := by
  induction hextends with
  | refl s => exact hranked
  | append _ _ hfresh hcost _ ih => exact ih (hranked.append_singleton hfresh hcost)

/-- A candidate that was not there before writes the key with one of the new values. -/
theorem of_mem (hextends : s.Extends values t) {c : Candidate} (hmem : c ∈ t.candidates) :
    c ∈ s.candidates ∨
      c.key = s.key ∧ c.value ∈ values ∧ c.value ∉ s.candidates.map Candidate.value := by
  induction hextends with
  | refl s => exact .inl hmem
  | @append s t d hkey hvalue hfresh _ _ ih =>
    rcases ih hmem with hbefore | ⟨hkey', hvalue', hfresh'⟩
    · rcases List.mem_append.mp hbefore with hold | hnew
      · exact .inl hold
      · rw [List.mem_singleton.mp hnew]
        exact .inr ⟨hkey, hvalue, hfresh⟩
    · refine .inr ⟨hkey', hvalue', fun hold ↦ hfresh' ?_⟩
      rw [pushBack, List.map_append]
      exact List.mem_append_left _ hold

end Extends

end Segment

/-! ### The rewriters for the scripts -/

namespace Rewriter

theorem extends_appendFallback {values : List String} {value : String} (hvalue : value ∈ values)
    {penalty : Int32} (hpenalty : 0 ≤ penalty.toInt) (s : Segment) :
    s.Extends values (appendFallback s value penalty).1 := by
  rw [appendFallback]
  split
  · exact .refl s
  next hmissing =>
  rw [Bool.or_eq_true, not_or] at hmissing
  refine .append rfl hvalue (fun hmem ↦ hmissing.2 ?_) (fun d hd ↦ ?_) (.refl _)
  · obtain ⟨d, hd, hsame⟩ := List.mem_map.mp hmem
    exact List.any_eq_true.mpr ⟨d, hd, beq_iff_eq.mpr hsame⟩
  · exact (cost_le_worstCost hd).trans (toInt_le_addCost _ hpenalty)

/-- A run of rewriters appends if each of them does to the segments with one key. -/
theorem extends_runAll {values : List String} {rewriters : List Rewriter} {key : String}
    (request : ConversionRequest)
    (hextends : ∀ r ∈ rewriters, ∀ s : Segment, s.key = key →
      s.Extends values (r.rewrite request s).1)
    {s : Segment} (hkey : s.key = key) : s.Extends values (runAll request rewriters s).1 := by
  induction rewriters generalizing s with
  | nil => exact .refl s
  | cons r rest ih =>
    obtain ⟨hfirst, hrest⟩ := List.forall_mem_cons.mp hextends
    rw [runAll_cons]
    split
    · exact ih hrest hkey
    · exact (hfirst s hkey).trans (ih hrest ((hfirst s hkey).key_eq.trans hkey))

/-- The forms of a key in the two scripts. -/
def scriptForms (key : String) : List String := [Script.toHiragana key, Script.toKatakana key]

theorem extends_runAll_scripts {rewriters : List Rewriter}
    (hscripts : ∀ r ∈ rewriters, r = .hiragana ∨ r = .katakana) (request : ConversionRequest)
    (s : Segment) : s.Extends (scriptForms s.key) (runAll request rewriters s).1 := by
  refine extends_runAll request (fun r hr t hkey ↦ ?_) rfl
  rw [← hkey]
  rcases hscripts r hr with rfl | rfl
  · exact extends_appendFallback (by simp [scriptForms]) (by decide) t
  · exact extends_appendFallback (by simp [scriptForms]) (by decide) t

end Rewriter

end KanaKanji
