import Mathlib
import KanaKanji.Proofs.Conversion.Partition
import KanaKanji.Proofs.Lexicon.Prefixes

/-!
# Splitting a key at a boundary

A key is split greedily, at each place into the longest reading that begins there. What comes later
has no say in that if the search depends on the front of a text only (`DependsOnFront`), as the
searches of a lexicon do (`dependsOnFront_prefixSearch`): cut at any boundary between two of its
pieces, a split key is split into the same pieces on both sides (`splitBy_flatten_of_append`). The
characters at which no reading begins keep together as well, since none begins there in a shorter
text either.
-/

set_option autoImplicit false

namespace KanaKanji

open Lexicon (FindsSize)

namespace Converter

/-! ### The longest front part -/

theorem byteCount_pos_iff {cs : List Char} : 0 < Text.byteCount cs ↔ cs ≠ [] := by
  rw [← Utf8.length_encodeChars, List.length_pos_iff, ← Utf8.encode_ofList, Ne,
    Utf8.encode_eq_nil_iff, String.ofList_eq_empty_iff]

/-- The sizes that come into question are those of front parts as long as a reading. -/
theorem mem_sizes_iff {found : List Finding} {cs : List Char} {n : ℕ} :
    n ∈ (found.map fun f ↦ Utf8.byteLength f.reading).filter
        (fun n ↦ 0 < n && (Text.splitAtByte? n cs).isSome) ↔
      ∃ front back, cs = front ++ back ∧ front ≠ [] ∧ Text.byteCount front = n ∧
        FindsSize found n := by
  simp only [List.mem_filter, List.mem_map, Bool.and_eq_true, decide_eq_true_eq,
    Option.isSome_iff_exists, Prod.exists, Text.splitAtByte?_eq_some_iff]
  constructor
  · rintro ⟨hfound, hpos, front, back, happend, hsize⟩
    exact ⟨front, back, happend, byteCount_pos_iff.mp (hsize ▸ hpos), hsize, hfound⟩
  · rintro ⟨front, back, happend, hne, hsize, hfound⟩
    exact ⟨hfound, hsize ▸ byteCount_pos_iff.mpr hne, front, back, happend, hsize⟩

theorem longestFront?_eq_some_iff {found : List Finding} {cs front back : List Char} :
    longestFront? found cs = some (front, back) ↔
      cs = front ++ back ∧ front ≠ [] ∧ FindsSize found (Text.byteCount front) ∧
        ∀ front' back', cs = front' ++ back' → FindsSize found (Text.byteCount front') →
          Text.byteCount front' ≤ Text.byteCount front := by
  simp only [longestFront?, Option.bind_eq_some_iff, List.max?_eq_some_iff, mem_sizes_iff,
    Text.splitAtByte?_eq_some_iff]
  constructor
  · rintro ⟨n, ⟨⟨front', back', happend', hne, hsize', hfound⟩, hmax⟩, happend, rfl⟩
    obtain ⟨rfl, rfl⟩ := Text.append_eq_append_of_byteCount (happend'.symm.trans happend) hsize'
    refine ⟨happend, hne, hfound, fun other behind hother hfound' ↦ ?_⟩
    rcases eq_or_ne other [] with rfl | hother_ne
    · exact Nat.zero_le _
    · exact hmax _ ⟨other, behind, hother, hother_ne, rfl, hfound'⟩
  · rintro ⟨happend, hne, hfound, hmax⟩
    refine ⟨_, ⟨⟨front, back, happend, hne, rfl, hfound⟩, ?_⟩, happend, rfl⟩
    rintro n ⟨front', back', happend', -, rfl, hfound'⟩
    exact hmax front' back' happend' hfound'

theorem longestFront?_eq_none_iff {found : List Finding} {cs : List Char} :
    longestFront? found cs = none ↔
      ∀ front back, cs = front ++ back → front ≠ [] → ¬ FindsSize found (Text.byteCount front) := by
  constructor
  · intro hnone front back happend hne hfound
    set sizes := (found.map fun f ↦ Utf8.byteLength f.reading).filter
      fun n ↦ 0 < n && (Text.splitAtByte? n cs).isSome with hsizes
    have hmem : Text.byteCount front ∈ sizes :=
      mem_sizes_iff.mpr ⟨front, back, happend, hne, rfl, hfound⟩
    rcases hmax : sizes.max? with _ | n
    · rw [List.max?_eq_none_iff.mp hmax] at hmem
      exact List.not_mem_nil hmem
    · obtain ⟨front', back', happend', -, hsize', -⟩ := mem_sizes_iff.mp (List.max?_mem hmax)
      rw [longestFront?, ← hsizes, hmax, Option.bind_some,
        Text.splitAtByte?_eq_some_iff.mpr ⟨happend', hsize'⟩] at hnone
      exact Option.some_ne_none _ hnone
  · intro hnever
    rcases hfront : longestFront? found cs with _ | ⟨front, back⟩
    · rfl
    · obtain ⟨happend, hne, hfound, -⟩ := longestFront?_eq_some_iff.mp hfront
      exact absurd hfound (hnever front back happend hne)

/-- Whether the search finds a reading as long as a front part of a text depends on that part
only. -/
def DependsOnFront (search : String → List Finding) : Prop :=
  ∀ front back : List Char,
    FindsSize (search (String.ofList (front ++ back))) (Text.byteCount front) ↔
      FindsSize (search (String.ofList front)) (Text.byteCount front)

variable {search : String → List Finding}

section Cut

variable (hsearch : DependsOnFront search)

include hsearch

/-- The longest front part is the longest one of each shorter text that it is in. -/
theorem longestFront?_of_append {front back behind : List Char}
    (hfront : longestFront? (search (String.ofList (front ++ back ++ behind)))
      (front ++ back ++ behind) = some (front, back ++ behind)) :
    longestFront? (search (String.ofList (front ++ back))) (front ++ back) =
      some (front, back) := by
  obtain ⟨-, hne, hfound, hmax⟩ := longestFront?_eq_some_iff.mp hfront
  refine longestFront?_eq_some_iff.mpr ⟨rfl, hne, ?_, fun front' back' happend hfound' ↦ ?_⟩
  · rw [List.append_assoc, hsearch] at hfound
    exact (hsearch _ _).mpr hfound
  · refine hmax front' (back' ++ behind) (by rw [happend, List.append_assoc]) ?_
    rw [happend, hsearch] at hfound'
    rw [happend, List.append_assoc]
    exact (hsearch _ _).mpr hfound'

theorem longestFront?_eq_none_of_append {cs behind : List Char}
    (hnone : longestFront? (search (String.ofList (cs ++ behind))) (cs ++ behind) = none) :
    longestFront? (search (String.ofList cs)) cs = none := by
  rw [longestFront?_eq_none_iff] at hnone ⊢
  rintro front back rfl hne hfound
  refine hnone front (back ++ behind) (List.append_assoc ..) hne ?_
  rw [hsearch] at hfound
  rw [List.append_assoc]
  exact (hsearch _ _).mpr hfound

end Cut

/-! ### Boundaries -/

theorem splitBy_of_eq_some {unknown cs front back : List Char}
    (hfront : longestFront? (search (String.ofList cs)) cs = some (front, back)) :
    splitBy search unknown cs = gathered unknown ++ front :: splitBy search [] back := by
  rcases cs with _ | ⟨c, rest⟩
  · have hlt := length_lt_of_longestFront? hfront
    exact absurd hlt (Nat.not_lt_zero _)
  · rw [splitBy]
    split
    · next front' back' hfound =>
      obtain ⟨rfl, rfl⟩ := Prod.mk.inj (Option.some.inj (hfound.symm.trans hfront))
      rfl
    · next hnone => exact absurd (hnone.symm.trans hfront) (Option.some_ne_none _).symm

theorem splitBy_cons_of_eq_none {unknown rest : List Char} {c : Char}
    (hnone : longestFront? (search (String.ofList (c :: rest))) (c :: rest) = none) :
    splitBy search unknown (c :: rest) = splitBy search (unknown ++ [c]) rest := by
  rw [splitBy]
  split
  · next front back hfound => exact absurd (hnone.symm.trans hfound) (Option.some_ne_none _).symm
  · rfl

theorem splitBy_nil (unknown : List Char) : splitBy search unknown [] = gathered unknown := by
  rw [splitBy]

/-- A boundary stands behind the piece gathered so far, or behind a later piece. -/
theorem eq_gathered_or_of_append {unknown piece : List Char}
    {pieces first others : List (List Char)}
    (hpieces : gathered unknown ++ piece :: pieces = first ++ others) (hfirst : first ≠ []) :
    first = gathered unknown ∧ others = piece :: pieces ∨
      ∃ more, first = gathered unknown ++ piece :: more ∧ pieces = more ++ others := by
  have hlater : ∀ {front : List (List Char)}, piece :: pieces = front ++ others →
      front = [] ∧ others = piece :: pieces ∨
        ∃ more, front = piece :: more ∧ pieces = more ++ others := by
    intro front hfront
    rcases List.cons_eq_append_iff.mp hfront with hnil | hcons
    · exact .inl ⟨hnil.1, hnil.2⟩
    · exact .inr hcons
  rcases unknown with _ | ⟨c, unknown⟩
  · exact hlater hpieces
  · rcases List.cons_eq_append_iff.mp hpieces with hnil | ⟨front, rfl, hfront⟩
    · exact absurd hnil.1 hfirst
    rcases hlater hfront with ⟨rfl, hothers⟩ | ⟨more, rfl, hmore⟩
    · exact .inl ⟨rfl, hothers⟩
    · exact .inr ⟨more, rfl, hmore⟩

theorem eq_of_gathered_eq_append {unknown : List Char} {first others : List (List Char)}
    (hpieces : gathered unknown = first ++ others) (hfirst : first ≠ []) :
    first = gathered unknown ∧ others = [] := by
  rcases unknown with _ | ⟨c, unknown⟩
  · exact absurd (List.append_eq_nil_iff.mp hpieces.symm).1 hfirst
  · rcases List.cons_eq_append_iff.mp hpieces with hnil | ⟨front, rfl, hfront⟩
    · exact absurd hnil.1 hfirst
    · obtain ⟨rfl, rfl⟩ := List.append_eq_nil_iff.mp hfront.symm
      exact ⟨rfl, rfl⟩

/-- The first pieces of a split text are those of a front part of it, and the others are those of
the rest, split by itself. -/
theorem exists_splitBy_of_append (hsearch : DependsOnFront search) {unknown cs : List Char}
    {first others : List (List Char)}
    (hpieces : splitBy search unknown cs = first ++ others) (hfirst : first ≠ []) :
    ∃ front back, cs = front ++ back ∧ splitBy search unknown front = first ∧
      splitBy search [] back = others := by
  fun_induction splitBy search unknown cs generalizing first with
  | case1 unknown =>
    obtain ⟨rfl, rfl⟩ := eq_of_gathered_eq_append hpieces hfirst
    exact ⟨[], [], rfl, splitBy_nil unknown, splitBy_nil []⟩
  | case2 unknown c rest front back hfound hshorter ih =>
    rcases eq_gathered_or_of_append hpieces hfirst with ⟨rfl, rfl⟩ | ⟨more, rfl, hmore⟩
    · exact ⟨[], c :: rest, rfl, splitBy_nil unknown, splitBy_of_eq_some hfound⟩
    obtain ⟨front', back', rfl, hfront', hback'⟩ : ∃ front' back', back = front' ++ back' ∧
        splitBy search [] front' = more ∧ splitBy search [] back' = others := by
      rcases eq_or_ne more [] with rfl | hne
      · exact ⟨[], back, rfl, splitBy_nil [], hmore⟩
      · exact ih hmore hne
    have hwhole : c :: rest = front ++ front' ++ back' :=
      (append_of_longestFront? hfound).1.trans (List.append_assoc ..).symm
    refine ⟨front ++ front', back', hwhole, ?_, hback'⟩
    rw [hwhole] at hfound
    rw [splitBy_of_eq_some (longestFront?_of_append hsearch hfound), hfront']
  | case3 unknown c rest hfound ih =>
    obtain ⟨front, back, rfl, hfront, hback⟩ := ih hpieces hfirst
    refine ⟨c :: front, back, rfl, ?_, hback⟩
    rw [splitBy_cons_of_eq_none (longestFront?_eq_none_of_append hsearch hfound)]
    exact hfront

/-- Cut at a boundary, a split text is split into the same pieces on both sides. -/
theorem splitBy_flatten_of_append (hsearch : DependsOnFront search)
    {first others : List (List Char)}
    (hpieces : splitBy search [] (first ++ others).flatten = first ++ others) :
    splitBy search [] first.flatten = first ∧ splitBy search [] others.flatten = others := by
  rcases eq_or_ne first [] with rfl | hne
  · exact ⟨splitBy_nil [], hpieces⟩
  obtain ⟨front, back, -, hfront, hback⟩ := exists_splitBy_of_append hsearch hpieces hne
  have hfront_flatten := flatten_splitBy search [] front
  have hback_flatten := flatten_splitBy search [] back
  rw [hfront, List.nil_append] at hfront_flatten
  rw [hback, List.nil_append] at hback_flatten
  rw [hfront_flatten, hback_flatten]
  exact ⟨hfront, hback⟩

/-! ### Searches of a lexicon -/

/-- Both searches for readings that a text begins with depend on the front of the text only. -/
theorem dependsOnFront_prefixSearch (l : Lexicon) (request : ConversionRequest) :
    DependsOnFront ((ofDictionary l.toDictionary).prefixSearch request) := by
  intro front back
  rw [prefixSearch]
  split
  · have hlong := l.findsSize_modifierInsensitiveSearch_iff front back
    have hfront := l.findsSize_modifierInsensitiveSearch_iff front []
    rw [List.append_nil] at hfront
    exact hlong.trans hfront.symm
  · have hlong := l.findsSize_commonPrefixSearch_iff front back
    have hfront := l.findsSize_commonPrefixSearch_iff front []
    rw [List.append_nil] at hfront
    exact hlong.trans hfront.symm

end Converter

end KanaKanji
