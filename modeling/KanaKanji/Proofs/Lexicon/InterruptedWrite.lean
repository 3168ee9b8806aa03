import Mathlib
import KanaKanji.Proofs.DataSet.Offers
import KanaKanji.Proofs.Lexicon.RoundTrip

/-!
# Writes of a lexicon that stop midway

A data set takes the four areas of a lexicon one after another, and whether an area is refused is
known only when its turn comes. A refused region itself changes nothing, but the regions before it
stay. So a failed write leaves the data set as it was only if it fails before the first region is
in: when there are no areas to write, or when the region of the trie is refused, for its name or for
the alignment.

Otherwise the alignment is known to be good, and what can be refused is a name. Then the target
keeps the regions in front of the first area whose name was taken (`BrokenOff`). This is
`failed_writeTo`, and `strayTrie` is a data set that was left with the trie alone.
-/

set_option autoImplicit false

namespace KanaKanji

namespace DataSet.Draft

variable {draft next last : Draft} {regions more : List Region}

/-! ### What a draft keeps -/

/-- The names that are taken. -/
def names (draft : Draft) : List String := draft.entries.map (·.name)

/-- The draft has become another one by taking regions: what was there stands in front, and the
names of the regions are taken. -/
structure GrewTo (draft : Draft) (regions : List Region) (next : Draft) : Prop where
  image_prefix : draft.image <+: next.image
  entries_prefix : draft.entries <+: next.entries
  names_eq : next.names = draft.names ++ regions.map Region.name

namespace GrewTo

theorem refl (draft : Draft) : draft.GrewTo [] draft :=
  ⟨List.prefix_rfl, List.prefix_rfl, (List.append_nil _).symm⟩

theorem trans (hfirst : draft.GrewTo regions next) (hsecond : next.GrewTo more last) :
    draft.GrewTo (regions ++ more) last :=
  ⟨hfirst.image_prefix.trans hsecond.image_prefix,
    hfirst.entries_prefix.trans hsecond.entries_prefix,
    by rw [hsecond.names_eq, hfirst.names_eq, List.map_append, List.append_assoc]⟩

/-- A draft that took a region is another draft. -/
theorem eq_nil_of_self (hgrew : draft.GrewTo regions draft) : regions = [] :=
  List.map_eq_nil_iff.mp (List.append_right_eq_self.mp hgrew.names_eq.symm)

end GrewTo

theorem grewTo_of_add {region : Region}
    (hadd : draft.add region.name region.alignment region.data = .ok next) :
    draft.GrewTo [region] next := by
  obtain ⟨-, rfl⟩ := add_eq_ok hadd
  refine ⟨?_, List.prefix_append _ _, ?_⟩
  · rw [List.append_assoc]
    exact List.prefix_append _ _
  · rw [names, names, List.map_append, List.map_singleton, List.map_singleton]

/-- Regions that are all taken stand behind what was there. -/
theorem grewTo_of_addAll (hadd : draft.addAll regions = (next, .ok ())) :
    draft.GrewTo regions next := by
  induction regions generalizing draft with
  | nil =>
    rw [addAll] at hadd
    obtain rfl := congrArg Prod.fst hadd
    exact .refl _
  | cons region regions ih =>
    rw [addAll] at hadd
    split at hadd
    · next middle hmiddle => exact (grewTo_of_add hmiddle).trans (ih hadd)
    · exact absurd (congrArg Prod.snd hadd) (by simp)

/-! ### What a draft refuses -/

/-- A region is refused for its name or, if that is free, for its alignment. -/
theorem add_eq_error_iff {name : String} {bits : ℕ} {data : List UInt8} {e : Error} :
    draft.add name bits data = .error e ↔
      name ∈ draft.names ∧ e = .duplicateName name ∨
        name ∉ draft.names ∧ bits ∉ alignments ∧ e = .invalidAlignment bits := by
  have hnames : draft.entries.any (·.name == name) ↔ name ∈ draft.names := by
    rw [names, List.any_eq_true, List.mem_map]
    simp only [beq_iff_eq]
  rw [add]
  by_cases hname : name ∈ draft.names
  · rw [if_pos (hnames.mpr hname)]
    simp only [Except.error.injEq, hname, true_and, not_true, false_and, or_false]
    exact eq_comm
  rw [if_neg (mt hnames.mp hname)]
  by_cases hbits : bits ∈ alignments
  · simp [hname, hbits]
  · rw [if_pos hbits]
    simp only [Except.error.injEq, hname, hbits, not_false_iff, true_and, false_and, false_or]
    exact eq_comm

/-- Regions that are all taken had free names, and alignments that exist. -/
theorem free_of_addAll (hadd : draft.addAll regions = (next, .ok ())) :
    ∀ region ∈ regions, region.name ∉ draft.names ∧ region.alignment ∈ alignments := by
  induction regions generalizing draft with
  | nil => simp
  | cons region regions ih =>
    rw [addAll] at hadd
    split at hadd
    · next middle hmiddle =>
      refine List.forall_mem_cons.mpr ⟨⟨fun hname ↦ ?_, (add_eq_ok hmiddle).1⟩, ?_⟩
      · rw [add_eq_error_iff.mpr (.inl ⟨hname, rfl⟩)] at hmiddle
        exact absurd hmiddle (by simp)
      · intro other hother
        obtain ⟨hname, hbits⟩ := ih hadd other hother
        rw [(grewTo_of_add hmiddle).names_eq, List.mem_append, not_or] at hname
        exact ⟨hname.1, hbits⟩
    · exact absurd (congrArg Prod.snd hadd) (by simp)

/-- A run over regions that is broken off has taken those in front of one that it refused. -/
theorem addAll_eq_error {e : Error} (hadd : draft.addAll regions = (next, .error e)) :
    ∃ front region back, regions = front ++ region :: back ∧
      draft.addAll front = (next, .ok ()) ∧
      next.add region.name region.alignment region.data = .error e := by
  induction regions generalizing draft with
  | nil => exact absurd (congrArg Prod.snd hadd) (by simp [addAll])
  | cons region regions ih =>
    rw [addAll] at hadd
    split at hadd
    · next middle hmiddle =>
      obtain ⟨front, refused, back, rfl, hfront, hrefused⟩ := ih hadd
      refine ⟨region :: front, refused, back, rfl, ?_, hrefused⟩
      rw [addAll, hmiddle]
      exact hfront
    · next reason hreason =>
      obtain ⟨rfl, he⟩ := Prod.mk.inj hadd
      obtain rfl := Except.error.inj he
      exact ⟨[], region, regions, rfl, rfl, hreason⟩

end DataSet.Draft

namespace Lexicon

open DataSet.Draft

variable {draft : Draft} {target after : DataSet.Draft} {alignment : ℕ}

/-! ### Areas as regions -/

theorem map_name_regions (areas : Areas) (alignment : ℕ) :
    (areas.regions alignment).map DataSet.Draft.Region.name =
      [trieRegion, indexRegion, recordRegion, poolRegion] := rfl

/-- No two areas go under one name. -/
theorem nodup_map_name_regions (areas : Areas) (alignment : ℕ) :
    ((areas.regions alignment).map DataSet.Draft.Region.name).Nodup := by
  rw [map_name_regions]
  decide

/-- An area has the alignment asked for, or starts at any byte. -/
theorem alignment_of_mem_regions {areas : Areas} {region : DataSet.Draft.Region}
    (hregion : region ∈ areas.regions alignment) :
    region.alignment = alignment ∨ region.alignment = 8 := by
  simp only [Areas.regions, List.mem_cons, List.not_mem_nil, or_false] at hregion
  rcases hregion with rfl | rfl | rfl | rfl <;> simp

/-- A lexicon whose areas cannot be made leaves the target alone; otherwise a write fails where a
region is refused. -/
theorem writeTo_eq_error {e : Error}
    (hfailed : draft.writeTo target alignment = (after, .error e)) :
    draft.areas = .error e ∧ after = target ∨
      ∃ areas reason, draft.areas = .ok areas ∧ e = .dataSet reason ∧
        target.addAll (areas.regions alignment) = (after, .error reason) := by
  rw [Draft.writeTo] at hfailed
  rcases hareas : draft.areas with reason | areas
  · rw [hareas] at hfailed
    obtain ⟨rfl, he⟩ := Prod.mk.inj hfailed
    exact .inl ⟨congrArg Except.error (Except.error.inj he), rfl⟩
  rcases hadd : target.addAll (areas.regions alignment) with ⟨last, outcome⟩
  rw [hareas] at hfailed
  simp only [hadd] at hfailed
  obtain ⟨rfl, houtcome⟩ := Prod.mk.inj hfailed
  rcases outcome with reason | _
  · exact .inr ⟨areas, reason, rfl, (Except.error.inj houtcome).symm, hadd⟩
  · exact absurd houtcome (by simp [Except.mapError])

/-- What a write leaves that was broken off at an area: the target has taken the areas in front of
that one. If there are any, the area is refused since the target had taken its name. -/
structure BrokenOff (target : DataSet.Draft) (regions front : List DataSet.Draft.Region)
    (region : DataSet.Draft.Region) (reason : DataSet.Error) (after : DataSet.Draft) : Prop where
  prefix_regions : front ++ [region] <+: regions
  addAll_front : target.addAll front = (after, .ok ())
  refused : after.add region.name region.alignment region.data = .error reason
  grew : target.GrewTo front after
  taken : front ≠ [] → region.name ∈ target.names ∧ reason = .duplicateName region.name

/-- Only the first area can be refused for the alignment, and none for the name of another area. -/
theorem brokenOff_of_addAll {areas : Areas} {reason : DataSet.Error}
    (hadd : target.addAll (areas.regions alignment) = (after, .error reason)) :
    ∃ front region, BrokenOff target (areas.regions alignment) front region reason after := by
  obtain ⟨front, region, back, hregions, hfront, hrefused⟩ := addAll_eq_error hadd
  have hgrew := grewTo_of_addAll hfront
  refine ⟨front, region, ⟨back, ?_⟩, hfront, hrefused, hgrew, fun hne ↦ ?_⟩
  · rw [hregions, List.append_assoc, List.singleton_append]
  have hbits : alignment ∈ DataSet.alignments := by
    obtain ⟨first, rest, rfl⟩ := List.exists_cons_of_ne_nil hne
    obtain ⟨rfl, -⟩ := List.cons_eq_cons.mp hregions
    exact (free_of_addAll hfront _ List.mem_cons_self).2
  have hallowed : region.alignment ∈ DataSet.alignments := by
    have hmem : region ∈ areas.regions alignment := by simp [hregions]
    rcases alignment_of_mem_regions hmem with hsame | height
    · rwa [hsame]
    · rw [height]
      decide
  rcases add_eq_error_iff.mp hrefused with ⟨hname, hreason⟩ | ⟨-, hnot, -⟩
  · have hnodup := nodup_map_name_regions areas alignment
    rw [hregions, List.map_append, List.map_cons] at hnodup
    have hother := (List.nodup_middle.mp hnodup).notMem
    rw [List.mem_append, not_or] at hother
    rw [hgrew.names_eq, List.mem_append] at hname
    exact ⟨hname.resolve_right hother.1, hreason⟩
  · exact absurd hallowed hnot

/-- The name of an area behind the first. -/
theorem name_mem_of_brokenOff {areas : Areas} {front : List DataSet.Draft.Region}
    {region : DataSet.Draft.Region} (hfront : front ++ [region] <+: areas.regions alignment)
    (hne : front ≠ []) : region.name ∈ [indexRegion, recordRegion, poolRegion] := by
  obtain ⟨first, rest, rfl⟩ := List.exists_cons_of_ne_nil hne
  have htail := (List.cons_prefix_cons.mp hfront).2
  have hmem := htail.subset (List.mem_append_right _ (List.mem_singleton_self region))
  exact List.mem_map_of_mem (f := DataSet.Draft.Region.name) hmem

/-- A failed write had no areas to write, or was broken off at one of them. -/
theorem brokenOff_of_writeTo {e : Error}
    (hfailed : draft.writeTo target alignment = (after, .error e)) :
    draft.areas = .error e ∧ after = target ∨
      ∃ areas front region reason, draft.areas = .ok areas ∧ e = .dataSet reason ∧
        BrokenOff target (areas.regions alignment) front region reason after := by
  rcases writeTo_eq_error hfailed with hnone | ⟨areas, reason, hareas, he, hadd⟩
  · exact .inl hnone
  · obtain ⟨front, region, hleft⟩ := brokenOff_of_addAll hadd
    exact .inr ⟨areas, front, region, reason, hareas, he, hleft⟩

/-- A failed write that changed the target took the trie, and met a taken name behind it. -/
theorem taken_of_changed {e : Error}
    (hfailed : draft.writeTo target alignment = (after, .error e)) (hchanged : after ≠ target) :
    (∃ areas, draft.areas = .ok areas) ∧ alignment ∈ DataSet.alignments ∧
      trieRegion ∉ target.names ∧
      ∃ name ∈ [indexRegion, recordRegion, poolRegion], name ∈ target.names := by
  obtain ⟨-, hsame⟩ | ⟨areas, front, region, reason, hareas, -, hleft⟩ :=
    brokenOff_of_writeTo hfailed
  · exact absurd hsame hchanged
  have hne : front ≠ [] := by
    rintro rfl
    exact hchanged (congrArg Prod.fst hleft.addAll_front).symm
  have hname := name_mem_of_brokenOff hleft.prefix_regions hne
  obtain ⟨first, rest, rfl⟩ := List.exists_cons_of_ne_nil hne
  obtain ⟨rfl, -⟩ := List.cons_prefix_cons.mp hleft.prefix_regions
  obtain ⟨hfree, hbits⟩ := free_of_addAll hleft.addAll_front _ List.mem_cons_self
  exact ⟨⟨areas, hareas⟩, hbits, hfree, region.name, hname, (hleft.taken hne).1⟩

/-- If the trie can be taken and the name of an area behind it is taken, the write fails with the
target changed. -/
theorem exists_changed_of_taken {areas : Areas} (hareas : draft.areas = .ok areas)
    (hbits : alignment ∈ DataSet.alignments) (hfree : trieRegion ∉ target.names) {name : String}
    (hname : name ∈ [indexRegion, recordRegion, poolRegion]) (htaken : name ∈ target.names) :
    ∃ e after, draft.writeTo target alignment = (after, .error e) ∧ after ≠ target := by
  rcases hadd : target.addAll (areas.regions alignment) with ⟨after, reason | _⟩
  · have hfailed : draft.writeTo target alignment = (after, .error (.dataSet reason)) := by
      rw [Draft.writeTo, hareas]
      simp only [hadd, Except.mapError]
    refine ⟨_, after, hfailed, ?_⟩
    rintro rfl
    obtain ⟨front, region, hleft⟩ := brokenOff_of_addAll hadd
    obtain rfl := hleft.grew.eq_nil_of_self
    -- The region of the trie would be the one refused, and nothing speaks against it.
    obtain ⟨rfl, -⟩ := List.cons_prefix_cons.mp hleft.prefix_regions
    rcases add_eq_error_iff.mp hleft.refused with ⟨hsame, -⟩ | ⟨-, hnot, -⟩
    · exact absurd hsame hfree
    · exact absurd hbits hnot
  · have hmem : name ∈ (areas.regions alignment).map DataSet.Draft.Region.name := by
      rw [map_name_regions]
      exact List.mem_cons_of_mem _ hname
    obtain ⟨region, hregion, rfl⟩ := List.mem_map.mp hmem
    exact absurd htaken (free_of_addAll hadd region hregion).1

/-- A failed write of a lexicon leaves the target as it was if there are no areas to write, and
otherwise with the areas in front of the one that was refused. So it changes the target just if the
areas can be made, the alignment exists, and the name of the trie is free but that of another area
is taken. -/
theorem failed_writeTo (draft : Draft) (target : DataSet.Draft) (alignment : ℕ) :
    (∀ e after, draft.writeTo target alignment = (after, .error e) →
      draft.areas = .error e ∧ after = target ∨
        ∃ areas front region reason, draft.areas = .ok areas ∧ e = .dataSet reason ∧
          BrokenOff target (areas.regions alignment) front region reason after) ∧
    ((∃ e after, draft.writeTo target alignment = (after, .error e) ∧ after ≠ target) ↔
      (∃ areas, draft.areas = .ok areas) ∧ alignment ∈ DataSet.alignments ∧
        trieRegion ∉ target.names ∧
        ∃ name ∈ [indexRegion, recordRegion, poolRegion], name ∈ target.names) := by
  refine ⟨fun e after hfailed ↦ brokenOff_of_writeTo hfailed, ?_, ?_⟩
  · rintro ⟨e, after, hfailed, hchanged⟩
    exact taken_of_changed hfailed hchanged
  · rintro ⟨⟨areas, hareas⟩, hbits, hfree, name, hname, htaken⟩
    exact exists_changed_of_taken hareas hbits hfree hname htaken

/-- A lexicon with one word. -/
def oneWord : Draft := .ofList [("か", [⟨"蚊", 1, 0, 0⟩])]

/-- A data set in which the name of the index is taken. -/
def takenIndex : DataSet.Draft :=
  ((DataSet.Draft.empty DataSet.defaultMagic).addAll [⟨indexRegion, 8, [0x78]⟩]).1

/-- What is left of the lexicon in the data set: its trie. -/
def strayTrie : DataSet.Draft := (oneWord.writeTo takenIndex 32).1

theorem writeTo_takenIndex :
    oneWord.writeTo takenIndex 32 = (strayTrie, .error (.dataSet (.duplicateName indexRegion))) ∧
      strayTrie.entries = [⟨indexRegion, 7, 1⟩, ⟨trieRegion, 8, 28⟩] ∧
      strayTrie.image.length = 36 := by
  have hrun : ((oneWord.writeTo takenIndex 32).2, strayTrie.entries, strayTrie.image.length) =
      (.error (.dataSet (.duplicateName indexRegion)),
        [⟨indexRegion, 7, 1⟩, ⟨trieRegion, 8, 28⟩], 36) := by cbv
  obtain ⟨houtcome, hentries, himage⟩ := by simpa only [Prod.mk.injEq] using hrun
  exact ⟨Prod.ext rfl houtcome, hentries, himage⟩

/-- The write of `oneWord` is broken off at the index. -/
theorem failed_writeTo_at_index :
    oneWord.writeTo takenIndex 32 = (strayTrie, .error (.dataSet (.duplicateName indexRegion))) ∧
      ∃ areas front region reason, oneWord.areas = .ok areas ∧
        BrokenOff takenIndex (areas.regions 32) front region reason strayTrie ∧
        takenIndex.names ++ front.map DataSet.Draft.Region.name = [indexRegion, trieRegion] := by
  obtain ⟨hfailed, hentries, -⟩ := writeTo_takenIndex
  refine ⟨hfailed, ?_⟩
  have hnames : strayTrie.names = [indexRegion, trieRegion] := by
    rw [DataSet.Draft.names, hentries]
    rfl
  rcases (failed_writeTo oneWord takenIndex 32).1 _ _ hfailed with
    ⟨-, hsame⟩ | ⟨areas, front, region, reason, hareas, -, hleft⟩
  · rw [hsame] at hnames
    exact absurd hnames (by decide)
  · exact ⟨areas, front, region, reason, hareas, hleft, by rw [← hleft.grew.names_eq, hnames]⟩

/-- A failed write may change both the directory and the image. -/
theorem exists_failed_writeTo_changed :
    ∃ e, oneWord.writeTo takenIndex 32 = (strayTrie, .error e) ∧
      strayTrie.entries ≠ takenIndex.entries ∧ strayTrie.image ≠ takenIndex.image := by
  obtain ⟨hfailed, hentries, himage⟩ := writeTo_takenIndex
  refine ⟨_, hfailed, ?_, fun hsame ↦ ?_⟩
  · rw [hentries]
    decide
  · rw [hsame] at himage
    exact absurd himage (by decide)

end Lexicon

end KanaKanji
