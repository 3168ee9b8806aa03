import Mathlib
import KanaKanji.Proofs.Conversion.Boundaries
import KanaKanji.Proofs.Conversion.Filled
import KanaKanji.Proofs.Conversion.Refusal

/-!
# No character is lost

The user types a key, and editing its conversion neither drops nor repeats a character of it
(`keys_of_run`), as long as no position wraps around: an index that does reaches back into the
history (`freeSegment_reaches_history`). The states may be any, also ones in which committed
segments stand between open ones.

Choosing, ranking, freeing and moving boundaries stay within the conversion segments
(`Transition.WithinConversion`): the joined key of these is the same afterwards, and none of them
becomes empty. What a state and its successor have in common is `Rearranged`. The regions are read
off the types again after each step, so the point to look at is the first conversion segment, which
has to stay open: otherwise the end of the history would move.

Submitting does move it. What stays then is the joined key of all segments; of a segment whose front
part is submitted that asks that the rest typed again is the rest of its key
(`Transition.MatchesKey`).
-/

set_option autoImplicit false

namespace KanaKanji.Segments

variable {s t u : Segments}

/-! ### The joined key of all segments -/

theorem keyOf_segments (s : Segments) :
    keyOf s.segments = keyOf s.historySegments ++ s.conversionKey := by
  rw [conversionKey, ← keyOf_append, history_append_conversion]

theorem keyOf_withConversion (s : Segments) (segments : List Segment) :
    keyOf (s.withConversion segments).segments = keyOf s.historySegments ++ keyOf segments :=
  keyOf_append _ _

/-! ### Rearranged segments -/

/-- A state with the same history whose conversion segments hold the same characters. No segment
is empty in it unless one was before. -/
structure Rearranged (s t : Segments) : Prop where
  historySegments_eq : t.historySegments = s.historySegments
  conversionKey_eq : t.conversionKey = s.conversionKey
  key_ne_empty : (∀ segment ∈ s.conversionSegments, segment.key ≠ "") →
    ∀ segment ∈ t.conversionSegments, segment.key ≠ ""

theorem Rearranged.refl (s : Segments) : s.Rearranged s :=
  ⟨rfl, rfl, id⟩

theorem Rearranged.trans (hst : s.Rearranged t) (htu : t.Rearranged u) : s.Rearranged u :=
  ⟨htu.historySegments_eq.trans hst.historySegments_eq,
    htu.conversionKey_eq.trans hst.conversionKey_eq,
    fun hs ↦ htu.key_ne_empty (hst.key_ne_empty hs)⟩

theorem Rearranged.keyOf_segments_eq (hst : s.Rearranged t) :
    keyOf t.segments = keyOf s.segments := by
  rw [keyOf_segments, keyOf_segments, hst.historySegments_eq, hst.conversionKey_eq]

/-- Other conversion segments with the same joined key rearrange a state if the first is open. -/
theorem rearranged_withConversion {segments : List Segment} (resized : Bool)
    (hopen : ∀ segment ∈ segments.head?, committed segment = false)
    (hkey : keyOf segments = s.conversionKey)
    (hkeys : (∀ segment ∈ s.conversionSegments, segment.key ≠ "") →
      ∀ segment ∈ segments, segment.key ≠ "") :
    s.Rearranged { s.withConversion segments with resized } := by
  have hsegments : Segments.conversionSegments { s.withConversion segments with resized } =
      segments :=
    conversionSegments_withConversion_of_head hopen
  refine ⟨historySegments_withConversion hopen, ?_, fun hs ↦ ?_⟩
  · rw [conversionKey, hsegments, hkey]
  · rw [hsegments]
    exact hkeys hs

/-- A change to one conversion segment rearranges a state if it keeps the key and leaves an open
segment open. -/
theorem rearranged_modify {i : ℕ} {f : Segment → Segment}
    (hkey : ∀ segment, s.conversionSegments[i]? = some segment → (f segment).key = segment.key)
    (hopen : ∀ segment, s.conversionSegments[i]? = some segment → committed segment = false →
      committed (f segment) = false) :
    s.Rearranged (s.withConversion (s.conversionSegments.modify i f)) := by
  refine rearranged_withConversion s.resized
    (Lists.forall_mem_head?_modify (fun _ ↦ s.open_of_mem_head?) hopen) ?_ fun hs ↦ ?_
  · rw [keyOf, Lists.map_modify hkey, conversionKey, keyOf]
  · refine Lists.forall_mem_modify hs fun segment hsegment ↦ ?_
    rw [hkey segment hsegment]
    exact hs segment (List.mem_of_getElem? hsegment)

/-- Behind some of the conversion segments, or behind none, the first segment is open if the first
of the other segments is. -/
theorem open_of_mem_head?_take_append (i : ℕ) {segments : List Segment}
    (hopen : ∀ segment ∈ segments.head?, committed segment = false) :
    ∀ segment ∈ (s.conversionSegments.take i ++ segments).head?, committed segment = false := by
  cases hconversion : s.conversionSegments with
  | nil => rwa [List.take_nil, List.nil_append]
  | cons first rest =>
    cases i with
    | zero => rwa [List.take_zero, List.nil_append]
    | succ i =>
      intro segment hmem
      obtain rfl : first = segment := Option.some.inj hmem
      exact s.open_of_mem_head? (by rw [hconversion]; rfl)

/-! ### Within the conversion segments -/

section Within

variable {i : UInt64} (hcounts : s.CountsOn i)

include hcounts

theorem rearranged_commitSegment (candidate : ℤ) :
    s.Rearranged (s.commitSegment i candidate).1 := by
  refine holds_of_done (.refl s) (keepsRefused_commitSegment i candidate s) fun t hdone ↦ ?_
  obtain ⟨segment, -, -, rfl⟩ := commitSegment_eq_done hcounts hdone
  exact rearranged_modify (fun _ _ ↦ Segment.key_chosen _ _) fun _ _ _ ↦ rfl

theorem rearranged_focusSegment (candidate : ℤ) :
    s.Rearranged (s.focusSegment i candidate).1 := by
  refine holds_of_done (.refl s) (keepsRefused_focusSegment i candidate s) fun t hdone ↦ ?_
  obtain ⟨segment, ranked, hsegment, hmove, rfl⟩ := focusSegment_eq_done hcounts hdone
  obtain ⟨hkey, htype⟩ := Segment.key_of_move? hmove
  refine rearranged_modify (fun other hother ↦ ?_) fun other hother hopen ↦ ?_
  · obtain rfl : segment = other := Option.some.inj (hsegment.symm.trans hother)
    exact hkey
  · obtain rfl : segment = other := Option.some.inj (hsegment.symm.trans hother)
    rw [committed, htype]
    exact hopen

theorem rearranged_freeSegment : s.Rearranged (s.freeSegment i).1 := by
  refine holds_of_done (.refl s) (keepsRefused_freeSegment i s) fun t hdone ↦ ?_
  obtain ⟨-, -, rfl⟩ := freeSegment_eq_done hcounts hdone
  exact rearranged_modify (fun _ _ ↦ rfl) fun _ _ _ ↦ rfl

theorem rearranged_resizeSegment (offset : ℤ) :
    s.Rearranged (s.resizeSegment i offset).1 := by
  refine holds_of_done (.refl s) (keepsRefused_resizeSegment i offset s) fun t hdone ↦ ?_
  obtain ⟨-, hoffset, segment, hsegment, hkept, -, rfl⟩ := resizeSegment_eq_done hcounts hdone
  refine rearranged_withConversion true (open_of_mem_head?_take_append i.toNat ?_)
    (keyOf_take_moved hsegment offset) fun hs ↦ ?_
  · obtain ⟨key, rest, hmoved⟩ :=
      exists_moved_eq_cons segment (s.conversionSegments.drop (i.toNat + 1)) offset
    rw [hmoved]
    exact fun first hmem ↦ Option.some.inj hmem ▸ rfl
  · refine List.forall_mem_append.mpr ⟨fun other hmem ↦ hs other (List.mem_of_mem_take hmem), ?_⟩
    exact forall_mem_moved (fun _ _ hkey _ ↦ hkey) (hs segment (List.mem_of_getElem? hsegment))
      hoffset hkept fun other hmem ↦ hs other (List.mem_of_mem_drop hmem)

theorem rearranged_resizeSegments (count : ℕ) (sizes : List UInt8) :
    s.Rearranged (s.resizeSegments i count sizes).1 := by
  refine holds_of_done (.refl s) (keepsRefused_resizeSegments i count sizes s) fun t hdone ↦ ?_
  obtain ⟨-, -, -, -, hkey, rfl⟩ := resizeSegments_eq_done hcounts hdone
  refine rearranged_withConversion true (open_of_mem_head?_take_append i.toNat ?_)
    (keyOf_take_recut s.conversionSegments i.toNat count sizes) fun hs ↦ ?_
  · rw [List.head?_append_of_ne_nil _ (recut_ne_nil hkey sizes)]
    intro first hmem
    rw [committed, type_of_mem_recut (List.mem_of_mem_head? hmem)]
    rfl
  · refine List.forall_mem_append.mpr ⟨fun other hmem ↦ hs other (List.mem_of_mem_take hmem),
      List.forall_mem_append.mpr ⟨forall_mem_recut (fun _ _ hkey _ ↦ hkey) _ sizes, ?_⟩⟩
    exact fun other hmem ↦ hs other (List.mem_of_mem_drop hmem)

end Within

/-- The transitions that leave the history where it is and edit the segments behind it. -/
def Transition.WithinConversion : Transition → Prop
  | .commitSegment _ _ => True
  | .focusSegment _ _ => True
  | .freeSegment _ => True
  | .resizeSegment _ _ => True
  | .resizeSegments _ _ _ => True
  | .commitPartially _ _ _ _ => False
  | .commitSegments _ => False
  | .reconstructHistory _ => False

theorem rearranged_apply {change : Transition} (hwithin : change.WithinConversion)
    (hcounts : ∀ i ∈ change.index?, s.CountsOn i) : s.Rearranged (change.apply s).1 := by
  cases change with
  | commitSegment i candidate => exact rearranged_commitSegment (hcounts i rfl) candidate
  | focusSegment i candidate => exact rearranged_focusSegment (hcounts i rfl) candidate
  | freeSegment i => exact rearranged_freeSegment (hcounts i rfl)
  | resizeSegment i offset => exact rearranged_resizeSegment (hcounts i rfl) offset
  | resizeSegments start count sizes =>
    exact rearranged_resizeSegments (hcounts start rfl) count sizes
  | commitPartially i candidate current new => exact hwithin.elim
  | commitSegments candidates => exact hwithin.elim
  | reconstructHistory text => exact hwithin.elim

/-! ### Submitting -/

theorem keyOf_commitSegments (s : Segments) (candidates : List ℤ) :
    keyOf (s.commitSegments candidates).1.segments = keyOf s.segments := by
  refine holds_commitSegments (p := fun t ↦ keyOf t.segments = keyOf s.segments) ?_ rfl candidates
  intro t first rest candidate ht hconversion
  rw [keyOf_withConversion, keyOf_cons, Segment.key_chosen, ← keyOf_cons, ← hconversion,
    ← conversionKey, ← keyOf_segments, ht]

/-- The front part that is submitted and the rest that is typed again are the key if they are
together. -/
theorem keyOf_commitPartially {i : UInt64} {current new : String} (hcounts : s.CountsOn i)
    (candidate : ℤ) (hsplit : ∀ segment, s.conversionSegments[i.toNat]? = some segment →
      current ++ new = segment.key) :
    keyOf (s.commitPartially i candidate current new).1.segments = keyOf s.segments := by
  refine holds_of_done (p := fun t ↦ keyOf t.segments = keyOf s.segments) rfl
    (keepsRefused_commitPartially i candidate current new s) fun t hdone ↦ ?_
  obtain ⟨segment, hsegment, -, -, rfl⟩ := commitPartially_eq_done hcounts hdone
  have hparts : keyOf (submittedPart segment candidate current :: .new new .free ::
      s.conversionSegments.drop (i.toNat + 1)) =
        keyOf (segment :: s.conversionSegments.drop (i.toNat + 1)) := by
    rw [keyOf_cons, keyOf_cons, keyOf_cons, ← hsplit segment hsegment, String.append_assoc]
    rfl
  rw [keyOf_withConversion, keyOf_append, hparts, ← keyOf_append,
    ← Lists.eq_take_append_cons_drop hsegment, keyOf_segments, conversionKey]

/-- Whether the keys that come with a transition make up the key of the segment that they are for.
A text that a history is made up from is for no segment. -/
def Transition.MatchesKey (s : Segments) : Transition → Prop
  | .commitPartially i _ current new =>
    ∀ segment, s.conversionSegments[i.toNat]? = some segment → current ++ new = segment.key
  | .reconstructHistory _ => False
  | _ => True

theorem keyOf_apply {change : Transition} (hcounts : ∀ i ∈ change.index?, s.CountsOn i)
    (hmatches : change.MatchesKey s) : keyOf (change.apply s).1.segments = keyOf s.segments := by
  have hrearranged : change.WithinConversion →
      keyOf (change.apply s).1.segments = keyOf s.segments := fun hwithin ↦
    (rearranged_apply hwithin hcounts).keyOf_segments_eq
  cases change with
  | commitPartially i candidate current new =>
    exact keyOf_commitPartially (hcounts i rfl) candidate hmatches
  | commitSegments candidates => exact s.keyOf_commitSegments candidates
  | reconstructHistory text => exact hmatches.elim
  | _ => exact hrearranged trivial

/-! ### Runs -/

/-- The state after transitions in turn, carried out or refused. -/
def run (s : Segments) (changes : List Transition) : Segments :=
  changes.foldl (fun s change ↦ (change.apply s).1) s

/-- Whether something holds of each of several changes and the state that it is for. -/
def Throughout {α : Type} (apply : α → Segments → Segments) (p : Segments → α → Prop) :
    Segments → List α → Prop
  | _, [] => True
  | s, change :: changes => p s change ∧ Throughout apply p (apply change s) changes

/-- Whether the index and the keys that come with each of several transitions suit the state that it
is for. -/
def Suited (s : Segments) (changes : List Transition) : Prop :=
  Throughout (fun change s ↦ (change.apply s).1)
    (fun s change ↦ (∀ i ∈ change.index?, s.CountsOn i) ∧ change.MatchesKey s) s changes

theorem rearranged_run {changes : List Transition}
    (hwithin : ∀ change ∈ changes, change.WithinConversion ∧ ∀ i ∈ change.index?, s.CountsOn i) :
    s.Rearranged (s.run changes) := by
  induction changes generalizing s with
  | nil => exact .refl s
  | cons change changes ih =>
    obtain ⟨⟨hchange, hcounts⟩, hchanges⟩ := List.forall_mem_cons.mp hwithin
    have hfirst := rearranged_apply hchange hcounts
    -- The history is the same afterwards, so the other positions do not wrap around there either.
    refine hfirst.trans (ih fun other hmem ↦ ⟨(hchanges other hmem).1, fun i hi ↦ ?_⟩)
    exact ((hchanges other hmem).2 i hi).congr hfirst.historySegments_eq

theorem keyOf_run {changes : List Transition} (hsuited : s.Suited changes) :
    keyOf (s.run changes).segments = keyOf s.segments := by
  induction changes generalizing s with
  | nil => rfl
  | cons change changes ih =>
    obtain ⟨⟨hcounts, hmatches⟩, hrest⟩ := hsuited
    exact (ih hrest).trans (keyOf_apply hcounts hmatches)

end KanaKanji.Segments
