import Mathlib
import KanaKanji.Proofs.Lexicon.Prefixes

/-!
# Readings found when modifiers are ignored

No character stands in two groups, and none twice in one. So to agree up to modifiers is an
equivalence of characters (`Modifier.agree_equivalence`), and the variants of a character are those
that agree with it, each once (`Modifier.mem_variants_iff_agree`, `Modifier.nodup_variants`).

With this the walk along all variants of a text comes to each reading on one way only
(`pairwise_walkVariants`), and what it finds does not change if the text is replaced by one that
agrees with it. The results of a search ascend by size, and of those of one size the first is the
reading that the text begins with as it is (`pairwise_modifierInsensitiveSearch`).
-/

set_option autoImplicit false

namespace KanaKanji

/-! ### Groups of kana -/

namespace Modifier

theorem nodup_flatten_groups : groups.flatten.Nodup := by decide +kernel

/-- Groups that have a character in common are the same. -/
theorem eq_of_mem_groups {g g' : List Char} (hg : g ∈ groups) (hg' : g' ∈ groups) {c : Char}
    (hc : c ∈ g) (hc' : c ∈ g') : g = g' := by
  by_contra hne
  have hdisjoint := (List.nodup_flatten.mp nodup_flatten_groups).2
  have : Std.Symm (@List.Disjoint Char) := ⟨fun _ _ ↦ List.Disjoint.symm⟩
  exact hdisjoint.forall hg hg' hne hc hc'

theorem agree_refl (c : Char) : Agree c c := .inl rfl

theorem Agree.symm {c d : Char} (hagree : Agree c d) : Agree d c := by
  rcases hagree with rfl | ⟨g, hg, hc, hd⟩
  · exact agree_refl c
  · exact .inr ⟨g, hg, hd, hc⟩

theorem Agree.trans {c d e : Char} (hagree : Agree c d) (hagree' : Agree d e) : Agree c e := by
  rcases hagree with rfl | ⟨g, hg, hc, hd⟩
  · exact hagree'
  rcases hagree' with rfl | ⟨g', hg', hd', he⟩
  · exact .inr ⟨g, hg, hc, hd⟩
  · exact .inr ⟨g, hg, hc, eq_of_mem_groups hg hg' hd hd' ▸ he⟩

theorem agree_equivalence : Equivalence Agree := ⟨agree_refl, Agree.symm, Agree.trans⟩

/-- The variants of a character are those that agree with it. -/
theorem mem_variants_iff_agree {v c : Char} : v ∈ variants c ↔ Agree v c := by
  rw [variants]
  rcases hgroup : group? c with _ | g
  · rw [Option.getD_none, List.mem_singleton]
    refine ⟨.inl, fun hagree ↦ hagree.resolve_right ?_⟩
    rintro ⟨g, hg, -, hc⟩
    exact List.find?_eq_none.mp hgroup g hg (by simpa using hc)
  · obtain ⟨hg, hc⟩ := mem_of_group?_eq_some hgroup
    rw [Option.getD_some]
    refine ⟨fun hv ↦ .inr ⟨g, hg, hv, hc⟩, ?_⟩
    rintro (rfl | ⟨g', hg', hv, hc'⟩)
    · exact hc
    · exact eq_of_mem_groups hg hg' hc hc' ▸ hv

theorem nodup_variants (c : Char) : (variants c).Nodup := by
  rw [variants]
  rcases hgroup : group? c with _ | g
  · exact List.nodup_singleton c
  · exact (List.nodup_flatten.mp nodup_flatten_groups).1 g (mem_of_group?_eq_some hgroup).1

/-- To be spelled with variants of a text is to agree with it place by place. -/
theorem spells_iff_forall₂_agree {spelled cs : List Char} :
    Spells spelled cs ↔ List.Forall₂ Agree spelled cs := by
  simp only [Spells, mem_variants_iff_agree]

theorem forall₂_agree_symm {cs ds : List Char} (hagree : List.Forall₂ Agree cs ds) :
    List.Forall₂ Agree ds cs :=
  (hagree.imp fun _ _ ↦ Agree.symm).flip

theorem forall₂_agree_trans {cs ds es : List Char} (hagree : List.Forall₂ Agree cs ds)
    (hagree' : List.Forall₂ Agree ds es) : List.Forall₂ Agree cs es := by
  induction hagree generalizing es with
  | nil => exact hagree'
  | cons hfirst _ ih =>
    cases hagree' with
    | cons hfirst' hrest' => exact .cons (hfirst.trans hfirst') (ih hrest')

/-- What agrees with a front part of a text agrees with a front part of any text that agrees with
it. -/
theorem exists_front_of_forall₂_agree {reading cs ds front : List Char}
    (hsame : List.Forall₂ Agree cs ds) (hfront : front <+: cs)
    (hagree : List.Forall₂ Agree reading front) :
    ∃ front, front <+: ds ∧ List.Forall₂ Agree reading front := by
  rw [List.prefix_iff_eq_take] at hfront
  rw [hfront] at hagree
  exact ⟨_, List.take_prefix _ _, forall₂_agree_trans hagree (List.forall₂_take _ hsame)⟩

end Modifier

namespace Lexicon

variable (l : Lexicon)

/-! ### Each reading once -/

/-- What the walk finds from a node by one variant of the character that comes next. -/
def walkVariant (rest : List Char) (node : ℕ) (reading : List Char) (v : Char) : List Finding :=
  match l.trie.descend? node (String.utf8EncodeChar v) with
  | none => []
  | some next =>
    ((l.wordsAt? next).map (⟨String.ofList (reading ++ [v]), ·⟩)).toList ++
      l.walkVariants rest next (reading ++ [v])

variable {cs : List Char} {node : ℕ} {reading : List Char} {v : Char} {found : Finding}

theorem walkVariants_cons (c : Char) :
    l.walkVariants (c :: cs) node reading =
      (Modifier.variants c).flatMap (l.walkVariant cs node reading) := rfl

variable {l}

theorem exists_of_mem_walkVariants (hfound : found ∈ l.walkVariants cs node reading) :
    ∃ v tail, found.reading.toList = reading ++ v :: tail := by
  obtain ⟨spelled, hne, -, hreading, -⟩ := l.mem_walkVariants_iff.mp hfound
  obtain ⟨v, tail, rfl⟩ := List.exists_cons_of_ne_nil hne
  exact ⟨v, tail, by rw [hreading, String.toList_ofList]⟩

/-- What is found by a variant goes on with it. -/
theorem exists_of_mem_walkVariant (hfound : found ∈ l.walkVariant cs node reading v) :
    ∃ tail, found.reading.toList = reading ++ v :: tail := by
  rw [walkVariant] at hfound
  split at hfound
  · exact absurd hfound List.not_mem_nil
  · rcases List.mem_append.mp hfound with hhere | hbehind
    · obtain ⟨words, -, rfl⟩ := Option.map_eq_some_iff.mp (Option.mem_toList.mp hhere)
      exact ⟨[], String.toList_ofList⟩
    · obtain ⟨w, tail, htail⟩ := exists_of_mem_walkVariants hbehind
      exact ⟨w :: tail, by rw [htail, List.append_assoc, List.singleton_append]⟩

theorem pairwise_walkVariants (cs : List Char) (node : ℕ) (reading : List Char) :
    (l.walkVariants cs node reading).Pairwise fun found other ↦ found.reading ≠ other.reading := by
  induction cs generalizing node reading with
  | nil => exact List.Pairwise.nil
  | cons c rest ih =>
    rw [walkVariants_cons]
    refine List.pairwise_flatMap.mpr ⟨fun v _ ↦ ?_, ?_⟩
    · rw [walkVariant]
      split
      · exact List.Pairwise.nil
      next next _ =>
      refine List.pairwise_append.mpr ⟨?_, ih next _, fun found hhere other hbehind hsame ↦ ?_⟩
      · cases l.wordsAt? next with
        | none => exact List.Pairwise.nil
        | some words => exact List.pairwise_singleton _ _
      · obtain ⟨words, -, rfl⟩ := Option.map_eq_some_iff.mp (Option.mem_toList.mp hhere)
        obtain ⟨w, tail, htail⟩ := exists_of_mem_walkVariants hbehind
        rw [← hsame, String.toList_ofList] at htail
        exact absurd htail (by simp)
    · refine (Modifier.nodup_variants c).imp fun {v w} hne ↦ ?_
      intro found hfound other hother hsame
      obtain ⟨tail, htail⟩ := exists_of_mem_walkVariant hfound
      obtain ⟨tail', htail'⟩ := exists_of_mem_walkVariant hother
      rw [hsame, htail'] at htail
      exact hne (List.cons.inj (List.append_cancel_left htail)).1.symm

/-- A search finds each reading once. -/
theorem nodup_modifierInsensitiveSearch (query : String) :
    ((l.modifierInsensitiveSearch query).map (·.reading)).Nodup := by
  have hwalk : ((l.walkVariants query.toList Louds.Trie.root []).map (·.reading)).Nodup :=
    List.pairwise_map.mpr (pairwise_walkVariants _ _ _)
  exact ((List.mergeSort_perm _ _).map _).nodup_iff.mpr hwalk

/-- The search for a text and for one that agrees with it find the same. -/
theorem mem_modifierInsensitiveSearch_congr {query query' : String}
    (hsame : List.Forall₂ Modifier.Agree query.toList query'.toList) :
    found ∈ l.modifierInsensitiveSearch query ↔ found ∈ l.modifierInsensitiveSearch query' := by
  simp only [mem_modifierInsensitiveSearch_iff, Modifier.spells_iff_forall₂_agree]
  refine and_congr_right fun _ ↦ and_congr_left fun _ ↦ ⟨?_, ?_⟩
  · rintro ⟨front, hfront, hagree⟩
    exact Modifier.exists_front_of_forall₂_agree hsame hfront hagree
  · rintro ⟨front, hfront, hagree⟩
    exact Modifier.exists_front_of_forall₂_agree (Modifier.forall₂_agree_symm hsame) hfront hagree

/-! ### The order of the results -/

theorem byteLength_le_of_variantRank_le {query : String} {found other : Finding}
    (hrank : variantRank query found ≤ variantRank query other) :
    Utf8.byteLength found.reading ≤ Utf8.byteLength other.reading ∧
      (Utf8.byteLength found.reading = Utf8.byteLength other.reading →
        other.reading.toList <+: query.toList → found.reading.toList <+: query.toList) := by
  simp only [variantRank, List.isPrefixOf_iff_prefix] at hrank
  split_ifs at hrank with hfound hother hother
  · exact ⟨by omega, fun _ _ ↦ hfound⟩
  · exact ⟨by omega, fun _ _ ↦ hfound⟩
  · exact ⟨by omega, fun hequal _ ↦ by omega⟩
  · exact ⟨by omega, fun _ hprefix ↦ absurd hprefix hother⟩

/-- What is found ascends by size, and of one size only the first may be what the text begins
with. -/
theorem pairwise_modifierInsensitiveSearch (query : String) :
    (l.modifierInsensitiveSearch query).Pairwise fun found other ↦
      Utf8.byteLength found.reading ≤ Utf8.byteLength other.reading ∧
        (Utf8.byteLength found.reading = Utf8.byteLength other.reading →
          ¬ other.reading.toList <+: query.toList) := by
  have hdistinct := List.pairwise_map.mp (nodup_modifierInsensitiveSearch (l := l) query)
  refine ((Ranking.pairwise_sortOn (variantRank query) _).and hdistinct).imp ?_
  rintro found other ⟨hrank, hne⟩
  obtain ⟨hsize, hlater⟩ := byteLength_le_of_variantRank_le hrank
  refine ⟨hsize, fun hequal ⟨back, hback⟩ ↦ hne ?_⟩
  obtain ⟨back', hback'⟩ := hlater hequal ⟨back, hback⟩
  rw [← String.ofList_toList (s := found.reading), ← String.ofList_toList (s := other.reading),
    Utf8.byteLength_ofList, Utf8.byteLength_ofList] at hequal
  exact String.toList_inj.mp
    (Text.append_eq_append_of_byteCount (hback'.trans hback.symm) hequal).1

end Lexicon

end KanaKanji
