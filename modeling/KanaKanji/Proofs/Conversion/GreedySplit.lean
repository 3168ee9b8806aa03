import Mathlib
import KanaKanji.Proofs.Conversion.Adjustment
import KanaKanji.Proofs.Conversion.PositionSplit
import KanaKanji.Proofs.Lexicon.StoredReadings

/-!
# Greedy splitting

With a set of known texts, a text is split greedily if each piece is the longest known text that the
rest begins with, or, where it begins with none, the run of characters up to the next place at which
one begins (`Greedy`). What the next piece is depends on the rest only (`NextPiece.unique`), so
there is one greedy split (`Greedy.unique`), and in it no two unknown pieces stand side by side
(`Greedy.isChain`).

A key is split that way if the search finds sizes of known texts (`greedy_splitBy`): the characters
that are kept while nothing is found are a run at which nothing known begins.
`greedy_startConversion_of_writeTo` says so of the segments of a new conversion, where known are the
readings of a stored lexicon, or what agrees with them up to modifiers, and that a split by
positions comes to an end with these pieces.
-/

set_option autoImplicit false

namespace KanaKanji

open Lexicon (FindsSize)

namespace Converter

/-! ### Greedy splits -/

section Greedy

variable (known : List Char → Prop)

/-- A text begins with a known one. -/
def BeginsKnown (text : List Char) : Prop := ∃ front, front <+: text ∧ known front

/-- The longest known front part of a text. -/
@[mk_iff]
structure LongestKnown (text piece : List Char) : Prop where
  isPrefix : piece <+: text
  isKnown : known piece
  longest : ∀ front, front <+: text → known front → front.length ≤ piece.length

/-- The characters of a text up to the first place at which a known text begins. -/
@[mk_iff]
structure UnknownRun (text piece : List Char) : Prop where
  isPrefix : piece <+: text
  ne_nil : piece ≠ []
  unknown : ∀ i < piece.length, ¬ BeginsKnown known (text.drop i)
  maximal : text.drop piece.length = [] ∨ BeginsKnown known (text.drop piece.length)

/-- The piece that a greedy split of a text begins with. -/
def NextPiece (text piece : List Char) : Prop :=
  LongestKnown known text piece ∨ UnknownRun known text piece

/-- A split of a text, each piece of which is the next one of what is left of the text. -/
inductive Greedy : List Char → List (List Char) → Prop
  | nil : Greedy [] []
  | cons {text piece : List Char} {pieces : List (List Char)} (hnext : NextPiece known text piece)
      (hrest : Greedy (text.drop piece.length) pieces) : Greedy text (piece :: pieces)

variable {known} {text piece other : List Char}

section Decidable

variable [DecidablePred known]

instance : Decidable (BeginsKnown known text) :=
  decidable_of_iff (∃ front ∈ text.inits, known front) (by simp only [List.mem_inits, BeginsKnown])

instance : Decidable (LongestKnown known text piece) :=
  decidable_of_iff' (piece <+: text ∧ known piece ∧
    ∀ front ∈ text.inits, known front → front.length ≤ piece.length) (by
      simp only [longestKnown_iff, List.mem_inits])

instance : Decidable (UnknownRun known text piece) :=
  decidable_of_iff' _ (unknownRun_iff known text piece)

instance : Decidable (NextPiece known text piece) :=
  inferInstanceAs (Decidable (LongestKnown known text piece ∨ UnknownRun known text piece))

end Decidable

theorem NextPiece.isPrefix (hnext : NextPiece known text piece) : piece <+: text :=
  hnext.elim LongestKnown.isPrefix UnknownRun.isPrefix

/-- Nothing known begins where an unknown run does. -/
theorem UnknownRun.not_beginsKnown (hrun : UnknownRun known text piece) :
    ¬ BeginsKnown known text :=
  hrun.unknown 0 (List.length_pos_iff.mpr hrun.ne_nil)

theorem LongestKnown.beginsKnown (hpiece : LongestKnown known text piece) :
    BeginsKnown known text :=
  ⟨piece, hpiece.isPrefix, hpiece.isKnown⟩

/-- A run does not end before another one, since a known text would begin there. -/
theorem UnknownRun.length_le (hrun : UnknownRun known text piece)
    (hother : UnknownRun known text other) : other.length ≤ piece.length := by
  by_contra hlt
  rcases hrun.maximal with hend | hbegins
  · have hle := hother.isPrefix.length_le
    rw [List.drop_eq_nil_iff] at hend
    omega
  · exact hother.unknown _ (not_le.mp hlt) hbegins

theorem NextPiece.unique (hnext : NextPiece known text piece)
    (hother : NextPiece known text other) : piece = other := by
  have hlength : piece.length = other.length := by
    rcases hnext with hpiece | hpiece <;> rcases hother with hother | hother
    · exact le_antisymm (hother.longest _ hpiece.isPrefix hpiece.isKnown)
        (hpiece.longest _ hother.isPrefix hother.isKnown)
    · exact absurd hpiece.beginsKnown hother.not_beginsKnown
    · exact absurd hother.beginsKnown hpiece.not_beginsKnown
    · exact le_antisymm (hother.length_le hpiece) (hpiece.length_le hother)
  rw [List.prefix_iff_eq_take.mp hnext.isPrefix, List.prefix_iff_eq_take.mp hother.isPrefix,
    hlength]

/-- Of an unknown run and the piece behind it, the latter is known. -/
theorem UnknownRun.known_next (hrun : UnknownRun known text piece)
    (hnext : NextPiece known (text.drop piece.length) other) (hne : other ≠ []) : known other := by
  rcases hnext with hother | hother
  · exact hother.isKnown
  · rcases hrun.maximal with hend | hbegins
    · exact absurd (List.prefix_nil.mp (hend ▸ hother.isPrefix)) hne
    · exact absurd hbegins hother.not_beginsKnown

variable {pieces others : List (List Char)}

theorem Greedy.nextPiece (hgreedy : Greedy known text (piece :: pieces)) :
    NextPiece known text piece := by
  cases hgreedy with
  | cons hnext _ => exact hnext

theorem Greedy.flatten_eq (hgreedy : Greedy known text pieces) : pieces.flatten = text := by
  induction hgreedy with
  | nil => rfl
  | cons hnext _ ih =>
    rw [List.flatten_cons, ih]
    exact (List.prefix_iff_eq_append.mp hnext.isPrefix)

section Empty

variable (hempty : ¬ known [])

include hempty

theorem NextPiece.ne_nil (hnext : NextPiece known text piece) : piece ≠ [] := by
  rcases hnext with hpiece | hpiece
  · rintro rfl
    exact hempty hpiece.isKnown
  · exact hpiece.ne_nil

theorem Greedy.nil_notMem (hgreedy : Greedy known text pieces) : [] ∉ pieces := by
  induction hgreedy with
  | nil => exact List.not_mem_nil
  | cons hnext _ ih => exact List.not_mem_cons_of_ne_of_not_mem (hnext.ne_nil hempty).symm ih

/-- There is one greedy split of a text. -/
theorem Greedy.unique (hgreedy : Greedy known text pieces) (hother : Greedy known text others) :
    pieces = others := by
  induction hgreedy generalizing others with
  | nil =>
    cases hother with
    | nil => rfl
    | cons hnext _ => exact absurd (List.prefix_nil.mp hnext.isPrefix) (hnext.ne_nil hempty)
  | cons hnext _ ih =>
    cases hother with
    | nil => exact absurd (List.prefix_nil.mp hnext.isPrefix) (hnext.ne_nil hempty)
    | cons hnext' hrest =>
      obtain rfl := hnext.unique hnext'
      rw [ih hrest]

/-- Of two pieces side by side one is known. -/
theorem Greedy.isChain (hgreedy : Greedy known text pieces) :
    pieces.IsChain fun piece next ↦ known piece ∨ known next := by
  induction hgreedy with
  | nil => exact .nil
  | @cons _ piece pieces hnext hrest ih =>
    rcases pieces with _ | ⟨next, pieces⟩
    · exact .singleton _
    · refine .cons_cons ?_ ih
      rcases hnext with hpiece | hpiece
      · exact .inl hpiece.isKnown
      · exact .inr (hpiece.known_next hrest.nextPiece (hrest.nextPiece.ne_nil hempty))

end Empty

end Greedy

/-! ### Splitting by a search -/

/-- Of two front parts of a text the one with no more bytes has no more characters. -/
theorem length_le_of_byteCount_le {text front piece : List Char} (hfront : front <+: text)
    (hpiece : piece <+: text) (hsize : Text.byteCount front ≤ Text.byteCount piece) :
    front.length ≤ piece.length := by
  rcases List.prefix_or_prefix_of_prefix hfront hpiece with hshorter | ⟨more, rfl⟩
  · exact hshorter.length_le
  · rw [Text.byteCount_append] at hsize
    have hmore : more = [] := by
      by_contra hne
      have hpos := byteCount_pos_iff.mpr hne
      omega
    rw [hmore, List.append_nil]

section Split

variable {known : List Char → Prop} {search : String → List Finding}
  (hsearch : ∀ front back : List Char,
    FindsSize (search (String.ofList (front ++ back))) (Text.byteCount front) ↔
      front ≠ [] ∧ known front)

include hsearch

theorem longestKnown_of_longestFront? {text front back : List Char}
    (hfront : longestFront? (search (String.ofList text)) text = some (front, back)) :
    text = front ++ back ∧ LongestKnown known text front := by
  obtain ⟨rfl, hne, hfound, hmax⟩ := longestFront?_eq_some_iff.mp hfront
  refine ⟨rfl, List.prefix_append _ _, ((hsearch _ _).mp hfound).2, fun other hother hknown ↦ ?_⟩
  refine length_le_of_byteCount_le hother (List.prefix_append _ _) ?_
  obtain ⟨behind, happend⟩ := hother
  rcases eq_or_ne other [] with rfl | hother_ne
  · exact Nat.zero_le _
  · refine hmax other behind happend.symm ?_
    rw [← happend]
    exact (hsearch _ _).mpr ⟨hother_ne, hknown⟩

theorem not_beginsKnown_of_longestFront? (hempty : ¬ known []) {text : List Char}
    (hnone : longestFront? (search (String.ofList text)) text = none) :
    ¬ BeginsKnown known text := by
  rintro ⟨front, ⟨back, rfl⟩, hknown⟩
  have hne : front ≠ [] := fun hnil ↦ hempty (hnil ▸ hknown)
  exact longestFront?_eq_none_iff.mp hnone front back rfl hne ((hsearch _ _).mpr ⟨hne, hknown⟩)

omit hsearch in
/-- The characters gathered so far are the first piece, if there are any and a known text or nothing
is left behind them. -/
theorem greedy_gathered {unknown text : List Char} {pieces : List (List Char)}
    (hunknown : ∀ i < unknown.length, ¬ BeginsKnown known ((unknown ++ text).drop i))
    (hmaximal : text = [] ∨ BeginsKnown known text) (hpieces : Greedy known text pieces) :
    Greedy known (unknown ++ text) (gathered unknown ++ pieces) := by
  rcases unknown with _ | ⟨c, unknown⟩
  · exact hpieces
  · refine .cons (.inr ⟨List.prefix_append _ _, List.cons_ne_nil _ _, hunknown, ?_⟩) ?_
    · rwa [List.drop_left]
    · rwa [List.drop_left]

/-- Splitting keeps the characters at which nothing known begins until there is a piece, so the
pieces are those of the greedy split. -/
theorem greedy_append_splitBy (hempty : ¬ known []) {unknown cs : List Char}
    (hunknown : ∀ i < unknown.length, ¬ BeginsKnown known ((unknown ++ cs).drop i)) :
    Greedy known (unknown ++ cs) (splitBy search unknown cs) := by
  fun_induction splitBy search unknown cs with
  | case1 unknown =>
    have hend := greedy_gathered hunknown (.inl rfl) .nil
    rwa [List.append_nil (gathered unknown)] at hend
  | case2 unknown c rest front back hfound _ ih =>
    obtain ⟨happend, hlongest⟩ := longestKnown_of_longestFront? hsearch hfound
    refine greedy_gathered hunknown (.inr hlongest.beginsKnown) (.cons (.inl hlongest) ?_)
    rw [happend, List.drop_left]
    exact ih fun i hi ↦ absurd hi (Nat.not_lt_zero i)
  | case3 unknown c rest hfound ih =>
    have happend : unknown ++ c :: rest = unknown ++ [c] ++ rest := by simp
    rw [happend] at hunknown ⊢
    refine ih fun i hi ↦ ?_
    rw [List.length_append, List.length_singleton] at hi
    rcases Nat.lt_succ_iff_lt_or_eq.mp hi with hlt | rfl
    · exact hunknown i hlt
    · rw [List.append_assoc, List.drop_left]
      exact not_beginsKnown_of_longestFront? hsearch hempty hfound

theorem greedy_splitBy (hempty : ¬ known []) (cs : List Char) :
    Greedy known cs (splitBy search [] cs) :=
  greedy_append_splitBy hsearch hempty fun i (hi : i < ([] : List Char).length) ↦
    absurd hi (Nat.not_lt_zero i)

end Split

/-! ### Splitting with a stored lexicon -/

/-- A text that is a reading of a draft, or agrees with one up to modifiers if the request ignores
them. -/
def KnownTo (draft : Lexicon.Draft) (request : ConversionRequest) (text : List Char) : Prop :=
  ∃ reading ∈ draft.addedReadings,
    if request.isModifierInsensitive then List.Forall₂ Modifier.Agree reading.toList text
    else reading.toList = text

instance (draft : Lexicon.Draft) (request : ConversionRequest) :
    DecidablePred (KnownTo draft request) := fun text ↦
  inferInstanceAs (Decidable (∃ reading ∈ draft.addedReadings,
    if request.isModifierInsensitive then List.Forall₂ Modifier.Agree reading.toList text
    else reading.toList = text))

theorem not_knownTo_nil {draft : Lexicon.Draft} (hempty : "" ∉ draft.addedReadings)
    (request : ConversionRequest) : ¬ KnownTo draft request [] := by
  rintro ⟨reading, hadded, hknown⟩
  have hnil : reading.toList = [] := by
    split at hknown
    · exact List.forall₂_nil_right_iff.mp hknown
    · exact hknown
  exact hempty (String.toList_eq_nil_iff.mp hnil ▸ hadded)

/-- The search that a request wants finds the sizes of known texts. -/
theorem findsSize_prefixSearch_iff {draft : Lexicon.Draft} {l : Lexicon}
    (hstored : l.Stored draft) (request : ConversionRequest) (front back : List Char) :
    FindsSize ((ofLexicon l).prefixSearch request (String.ofList (front ++ back)))
        (Text.byteCount front) ↔ front ≠ [] ∧ KnownTo draft request front := by
  rw [prefixSearch, KnownTo]
  split
  · exact hstored.findsSize_modifierInsensitiveSearch_iff front back
  · exact hstored.findsSize_commonPrefixSearch_iff front back

/-- With a lexicon that was written to a data set with any other regions, and opened again, a
conversion of any key starts, under any request and whatever was there before. The keys of its
segments are the one greedy split of the key into readings that were added, or what agrees with them
if the request ignores modifiers, and into runs at which none begins. None of them is empty, and of
two side by side one is such a reading. By positions, in more rounds than the key has characters,
the key is split into the same pieces without a fault, so no character is cut. -/
theorem greedy_startConversion_of_writeTo (draft : Lexicon.Draft) (magic : List UInt8)
    (regions : List DataSet.Draft.Region) (alignment : ℕ) (before target : DataSet.Draft)
    (hbefore : (DataSet.Draft.empty magic).addAll regions = (before, .ok ()))
    (hwritten : draft.writeTo before alignment = (target, .ok ()))
    (hsize : target.toBytes.length < UInt64.size) :
    ∃ blob l, DataSet.Blob.ofBytes target.toBytes magic = .ok blob ∧
      Lexicon.ofBlob blob = .ok l ∧
      ∀ (request : ConversionRequest) (s : Segments) (key : String), key ≠ "" →
        ∃ t pieces, (ofLexicon l).startConversion request s key = (t, .ok ()) ∧
          t.conversionSegments.map (·.key) = pieces.map String.ofList ∧
          Greedy (KnownTo draft request) key.toList pieces ∧
          (∀ others, Greedy (KnownTo draft request) key.toList others → others = pieces) ∧
          (∀ rounds, key.toList.length < rounds →
            Guarded.splitAtPositions ((ofLexicon l).prefixSearch request) key.toList rounds =
              .ok pieces) ∧
          pieces.flatten = key.toList ∧ [] ∉ pieces ∧
          pieces.IsChain fun piece next ↦
            KnownTo draft request piece ∨ KnownTo draft request next := by
  obtain ⟨blob, l, hblob, hopen, hstored, hadded⟩ :=
    Lexicon.exists_stored_of_writeTo hbefore hwritten hsize
  refine ⟨blob, l, hblob, hopen, fun request s key hkey ↦ ?_⟩
  have hempty := not_knownTo_nil hadded request
  have hrespectful := respectful_ofDictionary l.toDictionary
  have hstart : (ofLexicon l).startConversion request s key =
      (((ofLexicon l).startConversion request s key).1, .ok ()) := by
    rw [startConversion, if_neg (by simpa using hkey)]
    rfl
  have hgreedy := greedy_splitBy (findsSize_prefixSearch_iff hstored request) hempty key.toList
  refine ⟨_, _, hstart, ?_, hgreedy, fun others hothers ↦ hothers.unique hempty hgreedy,
    fun rounds hrounds ↦ Guarded.splitAtPositions_eq_ok hrounds, hgreedy.flatten_eq,
    hgreedy.nil_notMem hempty, hgreedy.isChain hempty⟩
  rw [(steady_startConversion hrespectful rfl hstart).2, freshRun_eq, List.map_map]
  exact List.map_congr_left fun piece _ ↦ (key_refresh request _ hrespectful _).1

/-- A request that ignores modifiers. -/
def ignoringModifiers : ConversionRequest where
  client := { modifierInsensitiveConversion := true }
  config := { useModifierInsensitiveConversion := true }

/-- As it is, `かぎxyか` begins with `か`, and with `かぎ` if modifiers are ignored. -/
theorem greedy_startConversion_of_writeTo_voiced :
    (DataSet.Draft.empty [0xEF]).addAll [] = (.empty [0xEF], .ok ()) ∧
      Lexicon.voicedReadings.writeTo (.empty [0xEF]) 32 = (Lexicon.voicedTarget, .ok ()) ∧
      Lexicon.voicedTarget.toBytes.length < UInt64.size ∧
      ∃ blob l, DataSet.Blob.ofBytes Lexicon.voicedTarget.toBytes [0xEF] = .ok blob ∧
        Lexicon.ofBlob blob = .ok l ∧
        (∃ t, (ofLexicon l).startConversion {} .empty "かぎxyか" = (t, .ok ()) ∧
          t.conversionSegments.map (·.key) = ["か", "ぎxy", "か"]) ∧
        ∃ t, (ofLexicon l).startConversion ignoringModifiers .empty "かぎxyか" = (t, .ok ()) ∧
          t.conversionSegments.map (·.key) = ["かぎ", "xy", "か"] := by
  obtain ⟨hwritten, hsize⟩ := Lexicon.writeTo_voicedReadings
  obtain ⟨blob, l, hblob, hopen, hsplit⟩ := greedy_startConversion_of_writeTo
    Lexicon.voicedReadings [0xEF] [] 32 _ _ rfl hwritten hsize
  refine ⟨rfl, hwritten, hsize, blob, l, hblob, hopen, ?_, ?_⟩
  · have hgreedy : Greedy (KnownTo Lexicon.voicedReadings {}) "かぎxyか".toList
        [['か'], ['ぎ', 'x', 'y'], ['か']] :=
      .cons (by decide) (.cons (by decide) (.cons (by decide) .nil))
    obtain ⟨t, pieces, hstart, hkeys, -, hunique, -⟩ := hsplit {} .empty "かぎxyか" (by decide)
    rw [← hunique _ hgreedy] at hkeys
    exact ⟨t, hstart, hkeys⟩
  · have hgreedy : Greedy (KnownTo Lexicon.voicedReadings ignoringModifiers) "かぎxyか".toList
        [['か', 'ぎ'], ['x', 'y'], ['か']] :=
      .cons (by decide) (.cons (by decide) (.cons (by decide) .nil))
    obtain ⟨t, pieces, hstart, hkeys, -, hunique, -⟩ :=
      hsplit ignoringModifiers .empty "かぎxyか" (by decide)
    rw [← hunique _ hgreedy] at hkeys
    exact ⟨t, hstart, hkeys⟩

end Converter

end KanaKanji
