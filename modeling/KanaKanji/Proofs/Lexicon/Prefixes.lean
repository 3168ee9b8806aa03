import Mathlib
import KanaKanji.Lexicon.Search
import KanaKanji.Proofs.Louds.PrefixWalk
import KanaKanji.Proofs.Ranking
import KanaKanji.Proofs.Text.ByteOrder
import KanaKanji.Text.Cut

/-!
# Readings that a text begins with

The two searches for readings that a text begins with find a reading just if a front part of the
text spells it, either as it is (`mem_commonPrefixSearch_iff`) or with other variants of its
characters (`mem_modifierInsensitiveSearch_iff`), and the trie leads along the reading to a key.

Variants of a character are as long as the character. So a reading that is found has the size of the
front part that it was found for, and whether one of that size is found does not depend on what
stands behind that part (`findsSize_commonPrefixSearch_iff`,
`findsSize_modifierInsensitiveSearch_iff`).
-/

set_option autoImplicit false

namespace KanaKanji

/-! ### Sizes -/

namespace Utf8

theorem encode_ofList (cs : List Char) : encode (String.ofList cs) = encodeChars cs := by
  rw [encode, String.toList_ofList]

theorem encode_eq_nil_iff {s : String} : encode s = [] ↔ s = "" :=
  encode_inj (b := "")

theorem length_encodeChars (cs : List Char) : (encodeChars cs).length = Text.byteCount cs := by
  induction cs with
  | nil => rfl
  | cons c cs ih =>
    rw [encodeChars_cons, List.length_append, String.length_utf8EncodeChar, ih, Text.byteCount]

theorem byteLength_ofList (cs : List Char) : byteLength (String.ofList cs) = Text.byteCount cs := by
  rw [← length_encode, encode_ofList, length_encodeChars]

end Utf8

/-- A text has one front part of a size. -/
theorem Text.append_eq_append_of_byteCount {front back front' back' : List Char}
    (happend : front ++ back = front' ++ back') (hsize : byteCount front = byteCount front') :
    front = front' ∧ back = back' := by
  have hsplit : splitAtByte? (byteCount front') (front ++ back) = some (front, back) :=
    splitAtByte?_eq_some_iff.mpr ⟨rfl, hsize⟩
  have hsplit' : splitAtByte? (byteCount front') (front ++ back) = some (front', back') :=
    splitAtByte?_eq_some_iff.mpr ⟨happend, rfl⟩
  exact Prod.mk.inj (Option.some.inj (hsplit.symm.trans hsplit'))

/-! ### Variants -/

namespace Modifier

/-- The characters of a text are variants of those of another, place by place. -/
def Spells (spelled cs : List Char) : Prop := List.Forall₂ (· ∈ variants ·) spelled cs

theorem mem_of_group?_eq_some {c : Char} {g : List Char} (hgroup : group? c = some g) :
    g ∈ groups ∧ c ∈ g :=
  ⟨List.mem_of_find?_eq_some hgroup, by simpa using List.find?_some hgroup⟩

theorem utf8Size_of_mem_groups {g : List Char} (hg : g ∈ groups) {c : Char} (hc : c ∈ g) :
    c.utf8Size = 3 := by
  have hsizes : groups.all (fun g ↦ g.all fun c ↦ c.utf8Size == 3) = true := by decide
  exact beq_iff_eq.mp (List.all_eq_true.mp (List.all_eq_true.mp hsizes g hg) c hc)

/-- All variants of a character are written with as many bytes. -/
theorem utf8Size_of_mem_variants {c v : Char} (hv : v ∈ variants c) :
    v.utf8Size = c.utf8Size := by
  rw [variants] at hv
  rcases hgroup : group? c with _ | g
  · rw [hgroup, Option.getD_none] at hv
    rw [List.mem_singleton.mp hv]
  · rw [hgroup, Option.getD_some] at hv
    obtain ⟨hg, hc⟩ := mem_of_group?_eq_some hgroup
    rw [utf8Size_of_mem_groups hg hv, utf8Size_of_mem_groups hg hc]

theorem Spells.byteCount_eq {spelled cs : List Char} (hspells : Spells spelled cs) :
    Text.byteCount spelled = Text.byteCount cs := by
  induction hspells with
  | nil => rfl
  | cons hv _ ih => rw [Text.byteCount, Text.byteCount, utf8Size_of_mem_variants hv, ih]

end Modifier

namespace Lexicon

variable (l : Lexicon)

/-! ### What the searches find -/

/-- A reading that the text begins with is found if the trie leads along it to a key. -/
theorem mem_commonPrefixSearch_iff {query : String} {found : Finding} :
    found ∈ l.commonPrefixSearch query ↔
      found.reading ≠ "" ∧ Utf8.encode found.reading <+: Utf8.encode query ∧
        (l.trie.traverse? (Utf8.encode found.reading)).bind l.wordsAt? = some found.words := by
  simp only [commonPrefixSearch, List.mem_filterMap, Louds.Trie.mem_commonPrefixSearch_iff]
  constructor
  · rintro ⟨located, ⟨hpos, hle, hnode, hid⟩, hfound⟩
    obtain ⟨reading, hreading, rfl⟩ := Option.map_eq_some_iff.mp hfound
    have hbytes := Utf8.decode?_eq_some_iff.mp hreading
    refine ⟨fun hnil ↦ ?_, hbytes ▸ List.take_prefix _ _, ?_⟩
    · rw [← Utf8.encode_eq_nil_iff, ← hbytes, ← List.length_eq_zero_iff,
        List.length_take_of_le hle] at hnil
      omega
    · rw [← hbytes, hnode, Option.bind_some, wordsAt?, hid, Option.map_some]
  · rintro ⟨hne, hprefix, hwords⟩
    obtain ⟨node, hnode, hwordsAt⟩ := Option.bind_eq_some_iff.mp hwords
    obtain ⟨id, hid, hwordsOf⟩ := Option.map_eq_some_iff.mp hwordsAt
    have htake := (List.prefix_iff_eq_take.mp hprefix).symm
    have hpos : 0 < (Utf8.encode found.reading).length :=
      List.length_pos_iff.mpr fun hnil ↦ hne (Utf8.encode_eq_nil_iff.mp hnil)
    refine ⟨⟨node, id, (Utf8.encode found.reading).length⟩,
      ⟨hpos, hprefix.length_le, ?_, hid⟩, ?_⟩
    · rw [htake, hnode]
    · rw [htake, Utf8.decode?_encode, Option.map_some, hwordsOf]

/-- The walk along the variants of the characters finds a reading just if it spells a front part of
them and the trie leads along it to a key. -/
theorem mem_walkVariants_iff {cs : List Char} {node : ℕ} {reading : List Char} {found : Finding} :
    found ∈ l.walkVariants cs node reading ↔
      ∃ spelled, spelled ≠ [] ∧ (∃ front, front <+: cs ∧ Modifier.Spells spelled front) ∧
        found.reading = String.ofList (reading ++ spelled) ∧
        (l.trie.descend? node (Utf8.encodeChars spelled)).bind l.wordsAt? = some found.words := by
  induction cs generalizing node reading with
  | nil =>
    rw [walkVariants]
    refine iff_of_false List.not_mem_nil ?_
    rintro ⟨spelled, hne, ⟨front, hfront, hspells⟩, -⟩
    rw [List.prefix_nil.mp hfront] at hspells
    exact hne (List.forall₂_nil_right_iff.mp hspells)
  | cons c rest ih =>
    rw [walkVariants, List.mem_flatMap]
    constructor
    · rintro ⟨v, hv, hfound⟩
      split at hfound
      · exact absurd hfound List.not_mem_nil
      next next hnext =>
      rcases List.mem_append.mp hfound with hhere | hbehind
      · obtain ⟨words, hwords, rfl⟩ := Option.map_eq_some_iff.mp (Option.mem_toList.mp hhere)
        refine ⟨[v], List.cons_ne_nil _ _,
          ⟨[c], List.cons_prefix_cons.mpr ⟨rfl, List.nil_prefix⟩, .cons hv .nil⟩, rfl, ?_⟩
        rw [Utf8.encodeChars_cons, Utf8.encodeChars_nil, List.append_nil, hnext]
        exact hwords
      · obtain ⟨spelled, -, ⟨front, hfront, hspells⟩, hreading, hwords⟩ := ih.mp hbehind
        refine ⟨v :: spelled, List.cons_ne_nil _ _,
          ⟨c :: front, List.cons_prefix_cons.mpr ⟨rfl, hfront⟩, .cons hv hspells⟩, ?_, ?_⟩
        · rw [hreading, List.append_assoc, List.singleton_append]
        · rw [Utf8.encodeChars_cons, Louds.Trie.descend?_append, hnext]
          exact hwords
    · rintro ⟨spelled, hne, ⟨front, hfront, hspells⟩, hreading, hwords⟩
      cases hspells with
      | nil => exact absurd rfl hne
      | @cons v c' behind front hv hspells =>
        obtain ⟨rfl, hrest⟩ := List.cons_prefix_cons.mp hfront
        rw [Utf8.encodeChars_cons, Louds.Trie.descend?_append, Option.bind_assoc] at hwords
        obtain ⟨next, hnext, hwords⟩ := Option.bind_eq_some_iff.mp hwords
        refine ⟨v, hv, ?_⟩
        rw [hnext]
        rcases behind with _ | ⟨w, behind⟩
        · refine List.mem_append_left _ (Option.mem_toList.mpr ?_)
          rw [Utf8.encodeChars_nil, Louds.Trie.descend?, Option.bind_some] at hwords
          rw [hwords, Option.map_some, ← hreading]
        · refine List.mem_append_right _ (ih.mpr ⟨w :: behind, List.cons_ne_nil _ _,
            ⟨front, hrest, hspells⟩, ?_, hwords⟩)
          rw [hreading, List.append_assoc, List.singleton_append]

/-- A reading is found if it spells a front part of the text and the trie leads along it to a
key. -/
theorem mem_modifierInsensitiveSearch_iff {query : String} {found : Finding} :
    found ∈ l.modifierInsensitiveSearch query ↔
      found.reading ≠ "" ∧
        (∃ front, front <+: query.toList ∧ Modifier.Spells found.reading.toList front) ∧
        (l.trie.traverse? (Utf8.encode found.reading)).bind l.wordsAt? = some found.words := by
  rw [modifierInsensitiveSearch, Ranking.mem_sortOn, mem_walkVariants_iff]
  constructor
  · rintro ⟨spelled, hne, hfront, hreading, hwords⟩
    rw [List.nil_append] at hreading
    rw [hreading, Utf8.encode, String.toList_ofList]
    exact ⟨by simpa using hne, hfront, hwords⟩
  · rintro ⟨hne, hfront, hwords⟩
    refine ⟨found.reading.toList, by simpa using hne, hfront, ?_, hwords⟩
    rw [List.nil_append, String.ofList_toList]

/-! ### Sizes that are found -/

/-- Some reading found has so many bytes. -/
def FindsSize (findings : List Finding) (size : ℕ) : Prop :=
  ∃ found ∈ findings, Utf8.byteLength found.reading = size

/-- Whether a reading as long as a front part is found depends on that part only. -/
theorem findsSize_commonPrefixSearch_iff (front back : List Char) :
    FindsSize (l.commonPrefixSearch (String.ofList (front ++ back))) (Text.byteCount front) ↔
      front ≠ [] ∧ ((l.trie.traverse? (Utf8.encodeChars front)).bind l.wordsAt?).isSome := by
  simp only [FindsSize, mem_commonPrefixSearch_iff, Utf8.encode_ofList, Utf8.encodeChars_append]
  constructor
  · rintro ⟨found, ⟨hne, ⟨tail, htail⟩, hwords⟩, hsize⟩
    rw [← Utf8.length_encode, ← Utf8.length_encodeChars] at hsize
    obtain ⟨hfront, -⟩ := List.append_inj htail hsize
    rw [← hfront, hwords]
    refine ⟨?_, rfl⟩
    rintro rfl
    exact hne (Utf8.encode_eq_nil_iff.mp hfront)
  · rintro ⟨hne, hwords⟩
    obtain ⟨words, hwords⟩ := Option.isSome_iff_exists.mp hwords
    refine ⟨⟨String.ofList front, words⟩, ⟨by simpa using hne, ?_, ?_⟩, ?_⟩
    · rw [Utf8.encode_ofList]
      exact List.prefix_append _ _
    · rw [Utf8.encode_ofList, hwords]
    · exact Utf8.byteLength_ofList front

/-- Whether a reading as long as a front part is found depends on that part only, also when
modifiers are ignored. -/
theorem findsSize_modifierInsensitiveSearch_iff (front back : List Char) :
    FindsSize (l.modifierInsensitiveSearch (String.ofList (front ++ back)))
        (Text.byteCount front) ↔
      front ≠ [] ∧ ∃ spelled, Modifier.Spells spelled front ∧
        ((l.trie.traverse? (Utf8.encodeChars spelled)).bind l.wordsAt?).isSome := by
  simp only [FindsSize, mem_modifierInsensitiveSearch_iff, String.toList_ofList]
  constructor
  · rintro ⟨found, ⟨hne, ⟨front', ⟨back', happend⟩, hspells⟩, hwords⟩, hsize⟩
    rw [← String.ofList_toList (s := found.reading), Utf8.byteLength_ofList,
      hspells.byteCount_eq] at hsize
    obtain ⟨rfl, -⟩ := Text.append_eq_append_of_byteCount happend hsize
    refine ⟨?_, found.reading.toList, hspells, ?_⟩
    · rintro rfl
      exact hne (String.toList_eq_nil_iff.mp (List.forall₂_nil_right_iff.mp hspells))
    · rw [← Utf8.encode, hwords]
      rfl
  · rintro ⟨hne, spelled, hspells, hwords⟩
    obtain ⟨words, hwords⟩ := Option.isSome_iff_exists.mp hwords
    refine ⟨⟨String.ofList spelled, words⟩, ⟨fun hempty ↦ hne ?_, ⟨front, ?_, ?_⟩, ?_⟩, ?_⟩
    · have hnil : spelled = [] := by simpa using hempty
      exact List.forall₂_nil_left_iff.mp (hnil ▸ hspells)
    · exact List.prefix_append _ _
    · rw [String.toList_ofList]
      exact hspells
    · rw [Utf8.encode_ofList, hwords]
    · rw [Utf8.byteLength_ofList, hspells.byteCount_eq]

end Lexicon

end KanaKanji
