import Mathlib
import KanaKanji.Proofs.Conversion.Layout
import KanaKanji.Proofs.Conversion.Settled

/-!
# Steady states

Between the steps of a user a conversion is steady (`Steady`): its segments are settled. A step
regroups some of the characters (`Regroups`) and converts again, which leaves a steady state
(`Steady.thenConvert`) and goes no further than the step did: moving a boundary changes nothing
before it (`Steady.take_resizeSegment`), and cutting a row anew changes nothing outside the row
(`Steady.exists_resizeSegments`). Freeing a segment that is free changes nothing, and freeing one
after its value was chosen leads back to the state before (`Steady.freeSegment_commitSegment`).
-/

set_option autoImplicit false

namespace KanaKanji

open Segments (keyOf committed done)

/-! ### Regrouped segments -/

namespace Segments

/-- A state whose conversion segments are others, all open, with the same joined key. -/
structure Regroups (s t : Segments) (segments : List Segment) : Prop where
  conversionSegments_eq : t.conversionSegments = segments
  conversionKey_eq : t.conversionKey = s.conversionKey
  open_type : ∀ segment ∈ t.conversionSegments, committed segment = false
  requestType_eq : t.requestType = s.requestType
  limit_eq : t.maxConversionCandidates = s.maxConversionCandidates

variable {s t : Segments}

theorem regroups_withConversion {segments : List Segment} (resized : Bool)
    (hopen : ∀ segment ∈ segments, committed segment = false)
    (hkey : keyOf segments = s.conversionKey) :
    s.Regroups { s.withConversion segments with resized } segments := by
  have hsegments : Segments.conversionSegments { s.withConversion segments with resized } =
      segments :=
    conversionSegments_withConversion hopen
  refine ⟨hsegments, ?_, ?_, rfl, rfl⟩
  · rw [conversionKey, hsegments, hkey]
  · rwa [hsegments]

variable (hopen : ∀ segment ∈ s.conversionSegments, committed segment = false)

include hopen

theorem regroups_of_modify {f : Segment → Segment}
    (hf : ∀ segment, (f segment).key = segment.key ∧ committed (f segment) = false) (i : ℕ) :
    s.Regroups (s.withConversion (s.conversionSegments.modify i f))
      (s.conversionSegments.modify i f) := by
  refine regroups_withConversion s.resized (Lists.forall_mem_modify hopen fun segment _ ↦
    (hf segment).2) ?_
  rw [conversionKey, keyOf, keyOf, Lists.map_modify fun segment _ ↦ (hf segment).1]

theorem regroups_of_resizeSegment {i : UInt64} {offset : ℤ} (hcounts : s.CountsOn i)
    (hdone : s.resizeSegment i offset = done t) :
    ∃ segment, s.conversionSegments[i.toNat]? = some segment ∧
      s.Regroups t (s.conversionSegments.take i.toNat ++
        moved segment (s.conversionSegments.drop (i.toNat + 1)) offset) := by
  obtain ⟨-, -, segment, hsegment, -, -, rfl⟩ := resizeSegment_eq_done hcounts hdone
  exact ⟨segment, hsegment,
    regroups_withConversion true (open_of_mem_take_moved hopen i.toNat segment offset)
      (keyOf_take_moved hsegment offset)⟩

theorem regroups_of_resizeSegments {start : UInt64} {count : ℕ} {sizes : List UInt8}
    (hcounts : s.CountsOn start) (hdone : s.resizeSegments start count sizes = done t) :
    s.Regroups t (s.conversionSegments.take start.toNat ++
      (recut ((s.conversionSegments.drop start.toNat).take count) sizes ++
        s.conversionSegments.drop (start.toNat + count))) := by
  obtain ⟨-, -, -, -, -, rfl⟩ := resizeSegments_eq_done hcounts hdone
  exact regroups_withConversion true (open_of_mem_take_recut hopen _ _ _ _)
    (keyOf_take_recut s.conversionSegments start.toNat count sizes)

end Segments

namespace Converter

/-! ### Steady states -/

/-- A state between adjustments: its conversion segments make up a key, are open and are settled. -/
structure Steady (c : Converter) (request : ConversionRequest) (limit : ℕ) (key : String)
    (s : Segments) : Prop where
  conversionKey_eq : s.conversionKey = key
  requestType_eq : s.requestType = .conversion
  limit_eq : s.maxConversionCandidates = limit
  open_type : ∀ segment ∈ s.conversionSegments, committed segment = false
  settled : c.Settled request limit s.conversionSegments

variable {c : Converter} {request : ConversionRequest} {limit : ℕ} {key : String}
  {s t u : Segments}

theorem thenConvert_eq_ok {outcome : Outcome}
    (houtcome : c.thenConvert request outcome = (u, .ok ())) :
    ∃ t, outcome = done t ∧ u = c.convert request t := by
  rcases outcome with ⟨t, e | ⟨⟩⟩
  · simp [thenConvert] at houtcome
  · exact ⟨t, rfl, (congrArg Prod.fst houtcome).symm⟩

section Convert

variable (hrespectful : ∀ r ∈ c.rewriters, r.Respectful)

include hrespectful

variable (request) in
theorem conversionSegments_convert
    (hopen : ∀ segment ∈ s.conversionSegments, committed segment = false) :
    (c.convert request s).conversionSegments =
      c.reconvert request s.maxConversionCandidates "" s.conversionSegments := by
  rw [convert_eq, Segments.conversionSegments_withConversion]
  exact open_of_mem_reconvert request _ hrespectful hopen ""

/-- Converting open segments leaves a steady state. -/
theorem steady_convert (hkey : s.conversionKey = key) (htype : s.requestType = .conversion)
    (hlimit : s.maxConversionCandidates = limit)
    (hopen : ∀ segment ∈ s.conversionSegments, committed segment = false) :
    c.Steady request limit key (c.convert request s) := by
  have hsegments := conversionSegments_convert request hrespectful hopen
  rw [hlimit] at hsegments
  refine ⟨?_, htype, hlimit, ?_, ?_⟩
  · rw [Segments.conversionKey, hsegments, keyOf_reconvert request limit hrespectful,
      String.empty_append]
    exact hkey
  · rw [hsegments]
    exact open_of_mem_reconvert request limit hrespectful hopen ""
  · rw [hsegments]
    exact c.settled_reconvert request limit hrespectful "" _

/-- A steady state whose segments are regrouped is steady again once it is converted. -/
theorem Steady.thenConvert (hs : c.Steady request limit key s) {outcome : Outcome}
    (hkept : KeptIfRefused s outcome)
    (hdone : ∀ t, outcome = done t → ∃ segments, s.Regroups t segments) :
    c.Steady request limit key (c.thenConvert request outcome).1 := by
  rcases outcome with ⟨t, e | ⟨⟩⟩
  · rw [Converter.thenConvert, hkept t e rfl]
    exact hs
  · obtain ⟨segments, hregroups⟩ := hdone t rfl
    exact steady_convert hrespectful (hregroups.conversionKey_eq.trans hs.conversionKey_eq)
      (hregroups.requestType_eq.trans hs.requestType_eq) (hregroups.limit_eq.trans hs.limit_eq)
      hregroups.open_type

/-- A conversion that is started leaves a steady state, whatever the conversion segments were. -/
theorem steady_startConversion (hlimit : s.maxConversionCandidates = limit)
    (hstart : c.startConversion request s key = (t, .ok ())) :
    c.Steady request limit key t ∧ t.conversionSegments = c.freshRun request limit key := by
  rw [startConversion] at hstart
  split at hstart
  · simp [Segments.refused] at hstart
  obtain rfl := congrArg Prod.fst hstart
  have hopen : ∀ segment ∈ [Segment.new key .free], committed segment = false :=
    List.forall_mem_singleton.mpr rfl
  have hsegments := conversionSegments_setKey s key
  rw [← hsegments] at hopen
  have hfresh := conversionSegments_convert request hrespectful hopen
  rw [hsegments, reconvert_cons_free _ _ _ rfl, String.empty_append] at hfresh
  refine ⟨steady_convert hrespectful ?_ rfl hlimit hopen, ?_⟩
  · rw [Segments.conversionKey, hsegments, Segments.keyOf_cons, Segments.keyOf_nil,
      String.append_empty]
    rfl
  · rw [← hlimit]
    exact hfresh

end Convert

section Adjust

variable (hrespectful : ∀ r ∈ c.rewriters, r.Respectful)
  (hsearch : DependsOnFront (c.prefixSearch request))

include hrespectful hsearch

/-- A chosen value leaves the segments around it settled. -/
theorem Steady.commitSegment (hs : c.Steady request limit key s) {i : UInt64}
    (hcounts : s.CountsOn i) (candidate : ℤ) :
    c.Steady request limit key (s.commitSegment i candidate).1 := by
  rcases houtcome : s.commitSegment i candidate with ⟨t, e | ⟨⟩⟩
  · rw [Segments.keepsRefused_commitSegment i candidate s t e houtcome]
    exact hs
  obtain ⟨segment, hsegment, -, rfl⟩ := Segments.commitSegment_eq_done hcounts houtcome
  have hregroups := Segments.regroups_of_modify hs.open_type
    (f := (Segments.chosen · candidate .fixedValue)) (fun _ ↦ ⟨Segment.key_chosen _ _, rfl⟩) i.toNat
  refine ⟨hregroups.conversionKey_eq.trans hs.conversionKey_eq, hs.requestType_eq, hs.limit_eq,
    hregroups.open_type, ?_⟩
  have hfront := hs.settled.take hrespectful hsearch i.toNat
  have hback := hs.settled.drop hrespectful hsearch (i.toNat + 1)
  rw [hregroups.conversionSegments_eq, Lists.modify_eq_append hsegment]
  exact hfront.append_cons SegmentType.noConfusion (if_neg (by simp [Segments.chosen])) hback

/-! ### What an adjustment does not reach -/

/-- Moving the end of a segment changes nothing before the segment. -/
theorem Steady.take_resizeSegment (hs : c.Steady request limit key s) {i : UInt64} {offset : ℤ}
    (hcounts : s.CountsOn i) (hresize : c.resizeSegment request s i offset = (u, .ok ())) :
    u.conversionSegments.take i.toNat = s.conversionSegments.take i.toNat := by
  obtain ⟨t, hdone, rfl⟩ := thenConvert_eq_ok hresize
  obtain ⟨segment, hsegment, hregroups⟩ :=
    Segments.regroups_of_resizeSegment hs.open_type hcounts hdone
  obtain ⟨first, rest, hmoved⟩ :=
    Segments.exists_moved_eq_cons segment (s.conversionSegments.drop (i.toNat + 1)) offset
  have hfirst : (Segment.new first .fixedBoundary).type ≠ .free := SegmentType.noConfusion
  have hfront := hs.settled.take hrespectful hsearch i.toNat
  have hi := (List.getElem?_eq_some_iff.mp hsegment).1
  rw [conversionSegments_convert request hrespectful hregroups.open_type,
    hregroups.conversionSegments_eq, hregroups.limit_eq, hs.limit_eq, hmoved,
    reconvert_append_cons _ _ _ hfirst, hfront.reconvert_eq hrespectful]
  exact List.take_left' (List.length_take_of_le hi.le)

/-- Cutting a row of segments anew changes nothing outside the row. -/
theorem Steady.exists_resizeSegments (hs : c.Steady request limit key s) {start : UInt64}
    {count : ℕ} {sizes : List UInt8} (hcounts : s.CountsOn start)
    (hresize : c.resizeSegments request s start count sizes = (u, .ok ())) :
    ∃ middle, keyOf middle = keyOf ((s.conversionSegments.drop start.toNat).take count) ∧
      u.conversionSegments = s.conversionSegments.take start.toNat ++
        (middle ++ s.conversionSegments.drop (start.toNat + count)) := by
  obtain ⟨t, hdone, rfl⟩ := thenConvert_eq_ok hresize
  have hregroups := Segments.regroups_of_resizeSegments hs.open_type hcounts hdone
  obtain ⟨-, -, -, -, hkey, -⟩ := Segments.resizeSegments_eq_done hcounts hdone
  set row := (s.conversionSegments.drop start.toNat).take count
  have hfront := hs.settled.take hrespectful hsearch start.toNat
  have hback := hs.settled.drop hrespectful hsearch (start.toNat + count)
  have hkept : ∀ segment ∈ Segments.recut row sizes, segment.type ≠ .free := by
    intro segment hmem
    rw [Segments.type_of_mem_recut hmem]
    exact SegmentType.noConfusion
  refine ⟨(Segments.recut row sizes).map (c.refresh request limit), ?_, ?_⟩
  · rw [Segments.keyOf_map fun segment ↦ (key_refresh request limit hrespectful segment).1,
      Segments.keyOf_recut]
  rw [conversionSegments_convert request hrespectful hregroups.open_type,
    hregroups.conversionSegments_eq, hregroups.limit_eq, hs.limit_eq]
  -- The row has a first segment, which is not free: it parts what is before from what is behind.
  rcases hrecut : Segments.recut row sizes with _ | ⟨first, rest⟩
  · exact absurd hrecut (Segments.recut_ne_nil hkey sizes)
  rw [hrecut] at hkept
  obtain ⟨hfirst, hrest⟩ := List.forall_mem_cons.mp hkept
  rw [List.cons_append, reconvert_append_cons _ _ _ hfirst, hfront.reconvert_eq hrespectful,
    reconvert_append_of_kept _ _ _ hrest, hback.reconvert_eq hrespectful]
  rfl

end Adjust

/-! ### What freeing takes back -/

/-- Other open segments that are converted to those of a steady state lead back to it. -/
theorem Steady.convert_withConversion (hs : c.Steady request limit key s)
    {segments : List Segment} (hopen : ∀ segment ∈ segments, committed segment = false)
    (hsegments : c.reconvert request limit "" segments = s.conversionSegments) :
    c.convert request (s.withConversion segments) = s := by
  have hlimit : (s.withConversion segments).maxConversionCandidates = limit := hs.limit_eq
  rw [convert_eq, hlimit, Segments.conversionSegments_withConversion hopen, hsegments,
    Segments.withConversion_withConversion hopen, Segments.withConversion_conversionSegments]

section Free

variable (hrespectful : ∀ r ∈ c.rewriters, r.Respectful) (hs : c.Steady request limit key s)
  {i : UInt64} (hcounts : s.CountsOn i) {segment : Segment}
  (hsegment : s.conversionSegments[i.toNat]? = some segment) (hfree : segment.type = .free)

section

include hrespectful hs hsegment hfree

/-- A free segment is converted to what it was as long as it keeps its key and stays free. -/
theorem Steady.convert_modify {f : Segment → Segment}
    (hf : ∀ segment, (f segment).key = segment.key ∧ (f segment).type = .free) :
    c.convert request (s.withConversion (s.conversionSegments.modify i.toNat f)) = s := by
  refine hs.convert_withConversion
    (Lists.forall_mem_modify hs.open_type fun segment _ ↦ ?_) ?_
  · rw [committed, (hf segment).2]
    rfl
  · rw [Lists.modify_eq_append hsegment,
      reconvert_append_congr _ _ _ (hf segment).2 hfree (hf segment).1,
      ← Lists.eq_take_append_cons_drop hsegment]
    exact hs.settled.reconvert_eq hrespectful

end

include hrespectful hs hcounts hsegment hfree

/-- Freeing a free segment changes nothing. -/
theorem Steady.freeSegment_of_free : c.freeSegment request s i = (s, .ok ()) := by
  have hlt : i.toNat < s.conversionSize := (List.getElem?_eq_some_iff.mp hsegment).1
  rw [Converter.freeSegment, Segments.freeSegment_of_lt hcounts hs.requestType_eq hlt]
  exact Prod.ext (hs.convert_modify hrespectful hsegment hfree fun _ ↦ ⟨rfl, rfl⟩) rfl

/-- Freeing a segment whose value was chosen leads back to the state in which it was free. -/
theorem Steady.freeSegment_commitSegment {candidate : ℤ}
    (hcommit : c.commitSegment s i candidate = (u, .ok ())) :
    c.freeSegment request u i = (s, .ok ()) := by
  have hhistory := (Segments.rearranged_commitSegment hcounts candidate).historySegments_eq
  rw [← Converter.commitSegment, hcommit] at hhistory
  have hcounts' : u.CountsOn i := hcounts.congr hhistory
  obtain ⟨-, -, -, rfl⟩ := Segments.commitSegment_eq_done hcounts hcommit
  have hchosen : ∀ segment, (Segments.chosen segment candidate .fixedValue).key = segment.key ∧
      committed (Segments.chosen segment candidate .fixedValue) = false :=
    fun _ ↦ ⟨Segment.key_chosen _ _, rfl⟩
  have hregroups := Segments.regroups_of_modify hs.open_type hchosen i.toNat
  have hopen := hregroups.open_type
  rw [hregroups.conversionSegments_eq] at hopen
  have hlt : i.toNat < (s.withConversion (s.conversionSegments.modify i.toNat
      (Segments.chosen · candidate .fixedValue))).conversionSize := by
    rw [Segments.conversionSize, hregroups.conversionSegments_eq, List.length_modify]
    exact (List.getElem?_eq_some_iff.mp hsegment).1
  have htype := hregroups.requestType_eq.trans hs.requestType_eq
  rw [Converter.freeSegment, Segments.freeSegment_of_lt hcounts' htype hlt,
    hregroups.conversionSegments_eq, Segments.withConversion_withConversion hopen,
    List.modify_modify_eq]
  exact Prod.ext (hs.convert_modify hrespectful hsegment hfree fun segment ↦
    ⟨(hchosen segment).1, rfl⟩) rfl

end Free

end Converter

end KanaKanji
