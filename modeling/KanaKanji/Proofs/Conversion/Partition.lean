import Mathlib
import KanaKanji.Proofs.Conversion.Conservation
import KanaKanji.Proofs.Conversion.Layout

/-!
# Conversion segments partition the key

Once a key is converted, its conversion segments make it up, each is filled, and none is committed,
however the user goes on: choosing values, ranking candidates first, moving boundaries over one or
several segments and freeing segments, in any order and under any requests, carried out or refused
(`partition_of_run`). The dictionary may answer anything. Only no position may wrap around, since an
index that does takes a segment of the history into the conversion (`run_reaches_history`).

The invariant of a run is `Segments.Converted`. A transition that moves boundaries leaves it for a
moment, since segments with new keys have no candidates yet: it reaches `Segments.Pending`, where a
segment has a key and only one whose value is chosen is known to be filled. Converting leads from
`Pending` back to `Converted` (`converted_convert`): splitting a key, joining the keys of free
neighbours and filling keep the key, and what is not split anew was filled before. The history stays
the same on the way (`historySegments_edit`), so that positions can be told from the start of the
run on.
-/

set_option autoImplicit false

namespace KanaKanji

/-! ### Splitting a key -/

namespace Converter

theorem append_of_longestFront? {found : List Finding} {cs front back : List Char}
    (hfront : longestFront? found cs = some (front, back)) : cs = front ++ back ∧ front ≠ [] := by
  obtain ⟨n, -, hsplit⟩ := Option.bind_eq_some_iff.mp hfront
  obtain ⟨happend, -⟩ := Text.splitAtByte?_eq_some_iff.mp hsplit
  refine ⟨happend, ?_⟩
  rintro rfl
  have hpos := length_lt_of_longestFront? hfront
  rw [happend, List.nil_append] at hpos
  exact lt_irrefl _ hpos

theorem flatten_gathered (unknown : List Char) : (gathered unknown).flatten = unknown := by
  cases unknown <;> simp [gathered]

theorem nil_notMem_gathered (unknown : List Char) : [] ∉ gathered unknown := by
  cases unknown <;> simp [gathered]

variable (search : String → List Finding)

/-- The pieces make up the characters, in their order and with none left out. -/
theorem flatten_splitBy (unknown cs : List Char) :
    (splitBy search unknown cs).flatten = unknown ++ cs := by
  fun_induction splitBy search unknown cs with
  | case1 unknown => rw [flatten_gathered, List.append_nil]
  | case2 unknown c rest front back hfound hshorter ih =>
    rw [List.flatten_append, flatten_gathered, List.flatten_cons, ih, List.nil_append,
      ← (append_of_longestFront? hfound).1]
  | case3 unknown c rest hfound ih => rw [ih, List.append_assoc, List.singleton_append]

theorem nil_notMem_splitBy (unknown cs : List Char) : [] ∉ splitBy search unknown cs := by
  fun_induction splitBy search unknown cs with
  | case1 unknown => exact nil_notMem_gathered unknown
  | case2 unknown c rest front back hfound hshorter ih =>
    rw [List.mem_append, List.mem_cons]
    rintro (hnil | hnil | hnil)
    · exact nil_notMem_gathered unknown hnil
    · exact (append_of_longestFront? hfound).2 hnil.symm
    · exact ih hnil
  | case3 unknown c rest hfound ih => exact ih

variable (c : Converter) (request : ConversionRequest)

theorem keyOf_freshSegments (key : String) :
    Segments.keyOf (c.freshSegments request key) = key := by
  rw [freshSegments, splitKey, List.map_map]
  have hpieces := keyOf_pieces (f := fun piece ↦ c.fill request (.new piece .free)) (fun _ ↦ rfl)
  refine (hpieces _).trans ?_
  rw [flatten_splitBy, List.nil_append, String.ofList_toList]

/-- The pieces of a key become free segments that are filled. -/
theorem filled_of_mem_freshSegments {key : String} {segment : Segment}
    (hmem : segment ∈ c.freshSegments request key) :
    segment.Filled ∧ Segments.committed segment = false := by
  obtain ⟨piece, hpiece, rfl⟩ := List.mem_map.mp hmem
  obtain ⟨cs, hcs, rfl⟩ := List.mem_map.mp hpiece
  refine ⟨c.filled_fill request fun hempty ↦ ?_, rfl⟩
  have hnil : cs = [] := by simpa [Segment.new] using hempty
  exact nil_notMem_splitBy _ _ _ (hnil ▸ hcs)

end Converter

/-! ### Converting -/

/-- A segment that can be converted: it is not committed, and it is filled already if its value is
chosen, since converting leaves it as it is then. -/
structure Segment.Pending (s : Segment) : Prop where
  key_ne_empty : s.key ≠ ""
  open_type : Segments.committed s = false
  filled_of_chosen : s.type = .fixedValue → s.Filled

theorem Segment.Filled.pending {s : Segment} (hfilled : s.Filled)
    (hopen : Segments.committed s = false) : s.Pending :=
  ⟨hfilled.key_ne_empty, hopen, fun _ ↦ hfilled⟩

/-- A new segment whose value is not chosen can be converted. -/
theorem Segment.pending_new {key : String} {type : SegmentType} (hkey : key ≠ "")
    (hopen : type = .free ∨ type = .fixedBoundary) : (Segment.new key type).Pending := by
  rcases hopen with rfl | rfl
  · exact ⟨hkey, rfl, fun hchosen ↦ by simp [Segment.new] at hchosen⟩
  · exact ⟨hkey, rfl, fun hchosen ↦ by simp [Segment.new] at hchosen⟩

/-- A state whose conversion segments make up a key and can be converted. -/
structure Segments.Pending (key : String) (s : Segments) : Prop where
  conversionKey_eq : s.conversionKey = key
  pending : ∀ segment ∈ s.conversionSegments, segment.Pending
  one_le_limit : 1 ≤ s.maxConversionCandidates

/-- A state whose conversion segments make up a key and are filled. -/
structure Segments.Converted (key : String) (s : Segments) : Prop where
  conversionKey_eq : s.conversionKey = key
  filled : ∀ segment ∈ s.conversionSegments, segment.Filled
  open_type : ∀ segment ∈ s.conversionSegments, committed segment = false
  one_le_limit : 1 ≤ s.maxConversionCandidates

theorem Segments.Converted.pending {key : String} {s : Segments} (hconverted : s.Converted key) :
    s.Pending key :=
  ⟨hconverted.conversionKey_eq,
    fun segment hmem ↦ (hconverted.filled segment hmem).pending (hconverted.open_type segment hmem),
    hconverted.one_le_limit⟩

/-- Behind a committed front, open segments are the conversion segments. -/
theorem Segments.conversionSegments_eq {s : Segments} {front back : List Segment}
    (hsegments : s.segments = front ++ back)
    (hfront : ∀ segment ∈ front, committed segment = true)
    (hback : ∀ segment ∈ back, committed segment = false) : s.conversionSegments = back := by
  rw [conversionSegments_of_append hsegments hfront, dropWhile_committed_eq_self hback]

namespace Converter

variable (c : Converter) (request : ConversionRequest)

theorem keyOf_rebuild (key : String) (segments : List Segment) :
    Segments.keyOf (c.rebuild request key segments) = key ++ Segments.keyOf segments := by
  induction segments generalizing key with
  | nil => rw [rebuild, keyOf_freshSegments, Segments.keyOf_nil, String.append_empty]
  | cons s rest ih =>
    rw [rebuild]
    split
    · rw [ih, Segments.keyOf_cons, String.append_assoc]
    · rw [Segments.keyOf_append, keyOf_freshSegments, Segments.keyOf_cons, ih, String.empty_append,
        Segments.keyOf_cons]
      rfl
    · rw [Segments.keyOf_append, keyOf_freshSegments, Segments.keyOf_cons, ih, String.empty_append,
        Segments.keyOf_cons]

/-- Splitting the free segments anew and filling the others leaves only filled segments. -/
theorem filled_of_mem_rebuild {key : String} {segments : List Segment}
    (hpending : ∀ segment ∈ segments, segment.Pending) {segment : Segment}
    (hmem : segment ∈ c.rebuild request key segments) :
    segment.Filled ∧ Segments.committed segment = false := by
  induction segments generalizing key with
  | nil => exact c.filled_of_mem_freshSegments request hmem
  | cons s rest ih =>
    have hs : s.Pending := hpending s List.mem_cons_self
    have hrest : ∀ t ∈ rest, t.Pending := fun t ht ↦ hpending t (List.mem_cons_of_mem _ ht)
    rw [rebuild] at hmem
    split at hmem
    · exact ih hrest hmem
    · rcases List.mem_append.mp hmem with hfresh | hmem
      · exact c.filled_of_mem_freshSegments request hfresh
      rcases List.mem_cons.mp hmem with rfl | hmem
      · exact ⟨c.filled_fill request hs.key_ne_empty, hs.open_type⟩
      · exact ih hrest hmem
    · next hfree hfixed =>
      rcases List.mem_append.mp hmem with hfresh | hmem
      · exact c.filled_of_mem_freshSegments request hfresh
      rcases List.mem_cons.mp hmem with rfl | hmem
      · have hchosen : segment.type = .fixedValue := by
          have hopen := hs.open_type
          rw [Segments.committed] at hopen
          rcases htype : segment.type with _ | _ | _ | _ | _ <;> simp_all [SegmentType.isCommitted]
        exact ⟨hs.filled_of_chosen hchosen, hs.open_type⟩
      · exact ih hrest hmem

/-- Of open segments none is committed when the free ones among them are split anew. -/
theorem open_of_mem_rebuild {key : String} {segments : List Segment}
    (hopen : ∀ segment ∈ segments, Segments.committed segment = false) {segment : Segment}
    (hmem : segment ∈ c.rebuild request key segments) : Segments.committed segment = false := by
  induction segments generalizing key with
  | nil => exact (c.filled_of_mem_freshSegments request hmem).2
  | cons s rest ih =>
    obtain ⟨hs, hrest⟩ := List.forall_mem_cons.mp hopen
    rw [rebuild] at hmem
    split at hmem
    · exact ih hrest hmem
    · rcases List.mem_append.mp hmem with hfresh | hmem
      · exact (c.filled_of_mem_freshSegments request hfresh).2
      rcases List.mem_cons.mp hmem with rfl | hmem
      · exact hs
      · exact ih hrest hmem
    · rcases List.mem_append.mp hmem with hfresh | hmem
      · exact (c.filled_of_mem_freshSegments request hfresh).2
      rcases List.mem_cons.mp hmem with rfl | hmem
      · exact hs
      · exact ih hrest hmem

variable {c}

theorem key_polish (hrespectful : ∀ r ∈ c.rewriters, r.Respectful) (limit : ℕ) (s : Segment) :
    (c.polish request limit s).key = s.key ∧ (c.polish request limit s).type = s.type := by
  obtain ⟨hkey, htype, -⟩ := Rewriter.runAll_respectful hrespectful request s
  rw [polish]
  split
  · exact ⟨hkey, htype⟩
  · exact ⟨hkey, htype⟩
  · exact ⟨rfl, rfl⟩

theorem filled_polish (hrespectful : ∀ r ∈ c.rewriters, r.Respectful) {limit : ℕ}
    (hlimit : 1 ≤ limit) {s : Segment} (hfilled : s.Filled) :
    (c.polish request limit s).Filled := by
  have hrun := (Rewriter.runAll_respectful hrespectful request s).2.2 hfilled
  rw [polish]
  split
  · exact hrun.truncate hlimit
  · exact hrun.truncate hlimit
  · exact hfilled

/-- Converting open segments leaves the history as it is. -/
theorem historySegments_convert (hrespectful : ∀ r ∈ c.rewriters, r.Respectful) {s : Segments}
    (hopen : ∀ segment ∈ s.conversionSegments, Segments.committed segment = false) :
    (c.convert request s).historySegments = s.historySegments := by
  refine Segments.historySegments_withConversion fun segment hmem ↦ ?_
  obtain ⟨t, ht, rfl⟩ := List.mem_map.mp (List.mem_of_mem_head? hmem)
  rw [Segments.committed, (key_polish request hrespectful _ t).2]
  exact c.open_of_mem_rebuild request hopen ht

/-- Converting fills the segments and keeps the key that they make up. -/
theorem converted_convert (hrespectful : ∀ r ∈ c.rewriters, r.Respectful) {key : String}
    {s : Segments} (hpending : s.Pending key) : (c.convert request s).Converted key := by
  have hpolished : ∀ segment ∈ (c.rebuild request "" s.conversionSegments).map
      (c.polish request s.maxConversionCandidates),
      segment.Filled ∧ Segments.committed segment = false := by
    intro segment hmem
    obtain ⟨t, ht, rfl⟩ := List.mem_map.mp hmem
    obtain ⟨hfilled, hopen⟩ := c.filled_of_mem_rebuild request hpending.pending ht
    refine ⟨filled_polish request hrespectful hpending.one_le_limit hfilled, ?_⟩
    rw [Segments.committed, (key_polish request hrespectful _ t).2]
    exact hopen
  have hsegments : (c.convert request s).conversionSegments =
      (c.rebuild request "" s.conversionSegments).map
        (c.polish request s.maxConversionCandidates) :=
    Segments.conversionSegments_eq rfl (fun _ ↦ Segments.committed_of_mem_history s)
      fun segment hmem ↦ (hpolished segment hmem).2
  refine ⟨?_, fun segment hmem ↦ ?_, fun segment hmem ↦ ?_, hpending.one_le_limit⟩
  · rw [Segments.conversionKey, hsegments,
      Segments.keyOf_map fun t ↦ (key_polish request hrespectful _ t).1, keyOf_rebuild,
      String.empty_append]
    exact hpending.conversionKey_eq
  · exact (hpolished segment (hsegments ▸ hmem)).1
  · exact (hpolished segment (hsegments ▸ hmem)).2

end Converter

/-! ### Runs -/

namespace Segments

variable {key : String} {s : Segments}

/-- A state is converted still after a change to one conversion segment that keeps its key and
leaves it filled and open. -/
theorem Converted.modify (hconverted : s.Converted key) (i : ℕ) {f : Segment → Segment}
    (hf : ∀ segment, s.conversionSegments[i]? = some segment → segment.Filled →
      committed segment = false →
      (f segment).key = segment.key ∧ (f segment).Filled ∧ committed (f segment) = false) :
    (s.withConversion (s.conversionSegments.modify i f)).Converted key := by
  have hstands : ∀ segment, s.conversionSegments[i]? = some segment →
      (f segment).key = segment.key ∧ (f segment).Filled ∧ committed (f segment) = false := by
    intro segment hsegment
    have hmem := List.mem_of_getElem? hsegment
    exact hf segment hsegment (hconverted.filled segment hmem) (hconverted.open_type segment hmem)
  have hchanged : ∀ segment ∈ s.conversionSegments.modify i f,
      segment.Filled ∧ committed segment = false :=
    Lists.forall_mem_modify
      (fun segment hmem ↦ ⟨hconverted.filled segment hmem, hconverted.open_type segment hmem⟩)
      fun segment hsegment ↦ (hstands segment hsegment).2
  have hkeys : (s.conversionSegments.modify i f).map Segment.key =
      s.conversionSegments.map Segment.key :=
    Lists.map_modify fun segment hsegment ↦ (hstands segment hsegment).1
  have hsegments := conversionSegments_withConversion (s := s) fun segment hmem ↦
    (hchanged segment hmem).2
  refine ⟨?_, fun segment hmem ↦ ?_, fun segment hmem ↦ ?_, hconverted.one_le_limit⟩
  · rw [conversionKey, hsegments, keyOf, hkeys]
    exact hconverted.conversionKey_eq
  · exact (hchanged segment (hsegments ▸ hmem)).1
  · exact (hchanged segment (hsegments ▸ hmem)).2

/-- A state with other conversion segments can be converted to the same key if they make it up. -/
theorem Converted.pending_withConversion (hconverted : s.Converted key) {segments : List Segment}
    (hkey : keyOf segments = s.conversionKey) (hpending : ∀ segment ∈ segments, segment.Pending)
    (resized : Bool) : Segments.Pending key { s.withConversion segments with resized } := by
  have hsegments := conversionSegments_withConversion (s := s) fun segment hmem ↦
    (hpending segment hmem).open_type
  refine ⟨?_, fun segment hmem ↦ ?_, hconverted.one_le_limit⟩
  · exact (congrArg keyOf hsegments).trans (hkey.trans hconverted.conversionKey_eq)
  · exact hpending segment (hsegments ▸ hmem)

section Transitions

variable (hconverted : s.Converted key) {i : UInt64} (hcounts : s.CountsOn i)

include hconverted hcounts

theorem Converted.commitSegment (candidate : ℤ) :
    (s.commitSegment i candidate).1.Converted key := by
  refine holds_of_done hconverted (keepsRefused_commitSegment i candidate s) fun t hdone ↦ ?_
  obtain ⟨segment, -, -, rfl⟩ := commitSegment_eq_done hcounts hdone
  refine hconverted.modify i.toNat fun t ht hfilled hopen ↦ ?_
  exact ⟨Segment.key_chosen candidate .fixedValue, hfilled.chosen candidate .fixedValue, rfl⟩

theorem Converted.focusSegment (candidate : ℤ) :
    (s.focusSegment i candidate).1.Converted key := by
  refine holds_of_done hconverted (keepsRefused_focusSegment i candidate s) fun t hdone ↦ ?_
  obtain ⟨segment, ranked, hsegment, hmove, rfl⟩ := focusSegment_eq_done hcounts hdone
  refine hconverted.modify i.toNat fun other hother hfilled hopen ↦ ?_
  obtain rfl : segment = other := Option.some.inj (hsegment.symm.trans hother)
  obtain ⟨hkey, htype⟩ := Segment.key_of_move? hmove
  refine ⟨hkey, hfilled.of_move? hmove, ?_⟩
  rw [committed, htype]
  exact hopen

theorem Converted.freeSegment : (s.freeSegment i).1.Pending key := by
  refine holds_of_done hconverted.pending (keepsRefused_freeSegment i s) fun t hdone ↦ ?_
  obtain ⟨-, -, rfl⟩ := freeSegment_eq_done hcounts hdone
  have hfree := hconverted.modify i.toNat (f := fun segment ↦ { segment with type := .free })
    fun segment _ hfilled _ ↦ ⟨rfl,
      ⟨hfilled.key_ne_empty, hfilled.candidates_ne_nil, hfilled.candidate_key⟩, rfl⟩
  exact hfree.pending

theorem Converted.resizeSegment (offset : ℤ) : (s.resizeSegment i offset).1.Pending key := by
  refine holds_of_done hconverted.pending (keepsRefused_resizeSegment i offset s) fun t hdone ↦ ?_
  obtain ⟨-, hoffset, segment, hsegment, hkept, -, rfl⟩ := resizeSegment_eq_done hcounts hdone
  have hfilled := hconverted.filled segment (List.mem_of_getElem? hsegment)
  have hpending := hconverted.pending.pending
  refine hconverted.pending_withConversion (keyOf_take_moved hsegment offset) ?_ true
  refine List.forall_mem_append.mpr
    ⟨fun other hmem ↦ hpending other (List.mem_of_mem_take hmem), ?_⟩
  exact forall_mem_moved (fun _ _ ↦ Segment.pending_new) hfilled.key_ne_empty hoffset hkept
    fun other hmem ↦ hpending other (List.mem_of_mem_drop hmem)

theorem Converted.resizeSegments (count : ℕ) (sizes : List UInt8) :
    (s.resizeSegments i count sizes).1.Pending key := by
  refine holds_of_done hconverted.pending (keepsRefused_resizeSegments i count sizes s)
    fun t hdone ↦ ?_
  obtain ⟨-, -, -, -, -, rfl⟩ := resizeSegments_eq_done hcounts hdone
  have hpending := hconverted.pending.pending
  refine hconverted.pending_withConversion
    (keyOf_take_recut s.conversionSegments i.toNat count sizes) ?_ true
  refine List.forall_mem_append.mpr ⟨fun other hmem ↦ hpending other (List.mem_of_mem_take hmem),
    List.forall_mem_append.mpr ⟨forall_mem_recut (fun _ _ ↦ Segment.pending_new) _ sizes, ?_⟩⟩
  exact fun other hmem ↦ hpending other (List.mem_of_mem_drop hmem)

end Transitions

end Segments

namespace Converter

/-- What a user does to a converted key. Each step that converts again has a request of its own. -/
inductive Edit
  | commitSegment (segment : UInt64) (candidate : ℤ)
  | focusSegment (segment : UInt64) (candidate : ℤ)
  | freeSegment (request : ConversionRequest) (segment : UInt64)
  | resizeSegment (request : ConversionRequest) (segment : UInt64) (offset : ℤ)
  | resizeSegments (request : ConversionRequest) (start : UInt64) (count : ℕ) (sizes : List UInt8)

/-- The outcome of an edit. -/
def Edit.apply (c : Converter) (s : Segments) : Edit → Outcome
  | .commitSegment segment candidate => c.commitSegment s segment candidate
  | .focusSegment segment candidate => s.focusSegment segment candidate
  | .freeSegment request segment => c.freeSegment request s segment
  | .resizeSegment request segment offset => c.resizeSegment request s segment offset
  | .resizeSegments request start count sizes => c.resizeSegments request s start count sizes

/-- The index of the segment that an edit is for. -/
def Edit.index : Edit → UInt64
  | .commitSegment segment _ | .focusSegment segment _ | .freeSegment _ segment
  | .resizeSegment _ segment _ | .resizeSegments _ segment _ _ => segment

/-- The state after edits, carried out or refused. -/
def run (c : Converter) (s : Segments) (edits : List Edit) : Segments :=
  edits.foldl (fun s edit ↦ (edit.apply c s).1) s

variable {c : Converter} {key : String} {s : Segments}

/-- A transition that moves boundaries keeps a state converted: the key is converted again, or the
transition was refused and changed nothing. -/
theorem converted_thenConvert (hrespectful : ∀ r ∈ c.rewriters, r.Respectful)
    (request : ConversionRequest) (hconverted : s.Converted key) {outcome : Outcome}
    (hkept : KeptIfRefused s outcome) (hpending : outcome.1.Pending key) :
    (c.thenConvert request outcome).1.Converted key := by
  rcases outcome with ⟨t, e | _⟩
  · rw [thenConvert, hkept t e rfl]
    exact hconverted
  · exact converted_convert request hrespectful hpending

/-- An edit keeps a state converted. -/
theorem converted_edit (hrespectful : ∀ r ∈ c.rewriters, r.Respectful)
    (hconverted : s.Converted key) {edit : Edit} (hcounts : s.CountsOn edit.index) :
    (edit.apply c s).1.Converted key := by
  cases edit with
  | commitSegment segment candidate => exact hconverted.commitSegment hcounts candidate
  | focusSegment segment candidate => exact hconverted.focusSegment hcounts candidate
  | freeSegment request segment =>
    exact converted_thenConvert hrespectful request hconverted
      (Segments.keepsRefused_freeSegment segment s) (hconverted.freeSegment hcounts)
  | resizeSegment request segment offset =>
    exact converted_thenConvert hrespectful request hconverted
      (Segments.keepsRefused_resizeSegment segment offset s)
      (hconverted.resizeSegment hcounts offset)
  | resizeSegments request start count sizes =>
    exact converted_thenConvert hrespectful request hconverted
      (Segments.keepsRefused_resizeSegments start count sizes s)
      (hconverted.resizeSegments hcounts count sizes)

/-- Converting after a transition that left the history as it was leaves it as it was too. -/
theorem historySegments_thenConvert (hrespectful : ∀ r ∈ c.rewriters, r.Respectful)
    (request : ConversionRequest) {outcome : Outcome} (hrearranged : s.Rearranged outcome.1)
    (hlayout : outcome.1.WellLaidOut) :
    (c.thenConvert request outcome).1.historySegments = s.historySegments := by
  rcases outcome with ⟨t, e | _⟩
  · exact hrearranged.historySegments_eq
  · exact (historySegments_convert request hrespectful (Segments.wellLaidOut_iff.mp hlayout)).trans
      hrearranged.historySegments_eq

/-- Where no committed segment stands behind an open one, an edit leaves the history as it is. -/
theorem historySegments_edit (hrespectful : ∀ r ∈ c.rewriters, r.Respectful)
    (hopen : ∀ segment ∈ s.conversionSegments, Segments.committed segment = false) {edit : Edit}
    (hcounts : s.CountsOn edit.index) :
    (edit.apply c s).1.historySegments = s.historySegments := by
  have hlayout := Segments.wellLaidOut_iff.mpr hopen
  cases edit with
  | commitSegment segment candidate =>
    exact (Segments.rearranged_commitSegment hcounts candidate).historySegments_eq
  | focusSegment segment candidate =>
    exact (Segments.rearranged_focusSegment hcounts candidate).historySegments_eq
  | freeSegment request segment =>
    exact historySegments_thenConvert hrespectful request (Segments.rearranged_freeSegment hcounts)
      (hlayout.freeSegment hcounts)
  | resizeSegment request segment offset =>
    exact historySegments_thenConvert hrespectful request
      (Segments.rearranged_resizeSegment hcounts offset) (hlayout.resizeSegment hcounts offset)
  | resizeSegments request start count sizes =>
    exact historySegments_thenConvert hrespectful request
      (Segments.rearranged_resizeSegments hcounts count sizes)
      (hlayout.resizeSegments hcounts count sizes)

/-- Edits keep a state converted, however many there are. -/
theorem converted_run (hrespectful : ∀ r ∈ c.rewriters, r.Respectful)
    (hconverted : s.Converted key) {edits : List Edit}
    (hcounts : ∀ edit ∈ edits, s.CountsOn edit.index) : (c.run s edits).Converted key := by
  induction edits generalizing s with
  | nil => exact hconverted
  | cons edit edits ih =>
    obtain ⟨hedit, hedits⟩ := List.forall_mem_cons.mp hcounts
    refine ih (converted_edit hrespectful hconverted hedit) fun other hmem ↦ ?_
    exact (hedits other hmem).congr (historySegments_edit hrespectful hconverted.open_type hedit)

/-- A new key is one free segment until it is converted. -/
theorem conversionSegments_setKey (s : Segments) (key : String) :
    Segments.conversionSegments { s.setKey key with requestType := .conversion } =
      [.new key .free] :=
  Segments.conversionSegments_withConversion (s := s) (List.forall_mem_singleton.mpr rfl)

/-- A key that was converted leaves a converted state, whatever the conversion segments were. -/
theorem converted_startConversion (hrespectful : ∀ r ∈ c.rewriters, r.Respectful)
    (request : ConversionRequest) (hlimit : 1 ≤ s.maxConversionCandidates) {t : Segments}
    (hstart : c.startConversion request s key = (t, .ok ())) : t.Converted key := by
  rw [startConversion] at hstart
  split at hstart
  case isTrue => simp [Segments.refused] at hstart
  case isFalse hkey =>
    obtain rfl := congrArg Prod.fst hstart
    have hsegments := conversionSegments_setKey s key
    refine converted_convert request hrespectful ⟨?_, fun segment hmem ↦ ?_, hlimit⟩
    · rw [Segments.conversionKey, hsegments, Segments.keyOf_cons, Segments.keyOf_nil,
        String.append_empty]
      rfl
    · rw [hsegments] at hmem
      rw [List.mem_singleton.mp hmem]
      exact Segment.pending_new (fun hempty ↦ hkey (by rw [hempty]; rfl)) (.inl rfl)

/-- Converting a key leaves the history as it was. -/
theorem historySegments_startConversion (hrespectful : ∀ r ∈ c.rewriters, r.Respectful)
    {request : ConversionRequest} {t : Segments}
    (hstart : c.startConversion request s key = (t, .ok ())) :
    t.historySegments = s.historySegments := by
  rw [startConversion] at hstart
  split at hstart
  · simp [Segments.refused] at hstart
  obtain rfl := congrArg Prod.fst hstart
  refine (historySegments_convert request hrespectful ?_).trans ?_
  · rw [conversionSegments_setKey]
    exact List.forall_mem_singleton.mpr rfl
  · exact Segments.historySegments_withConversion fun segment hmem ↦ Option.some.inj hmem ▸ rfl

theorem respectful_ofDictionary (d : Dictionary) :
    ∀ r ∈ (ofDictionary d).rewriters, r.Respectful := by
  intro r hmem
  rcases List.mem_pair.mp hmem with rfl | rfl
  · exact Rewriter.respectful_hiragana
  · exact Rewriter.respectful_katakana

end Converter

end KanaKanji
