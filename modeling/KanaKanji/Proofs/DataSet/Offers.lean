import Mathlib
import KanaKanji.Proofs.DataSet.RoundTrip

/-!
# Regions offered one after another

A draft can be offered any regions, with an alignment or without one. It takes a region just if none
of that name was taken before and if the alignment is 8, 16, 32 or 64 bits; `taken` lists the
regions that pass. A refused region changes nothing, so that its name is still free.

What is taken stands in the image in order (`Draft.Spaced`): each region at a multiple of its
alignment, behind the one before, and with zeros where a gap is left. Taking one more region keeps
this (`Spaced.add`), since its padding and its bytes go to the end of the image.

`readBack_of_offers` is the whole round trip: the outcome of each offer, and what a reader finds in
the finished blob (`Blob.Presents`).
-/

set_option autoImplicit false

namespace KanaKanji.DataSet

namespace Draft

/-! ### Offers -/

/-- A region that is offered to a draft, with an alignment in bits or without one. -/
inductive Offer
  | aligned (name : String) (bits : ℕ) (data : List UInt8)
  | unaligned (name : String) (data : List UInt8)

/-- The region of an offer; without an alignment it may start at any byte. -/
def Offer.region : Offer → Region
  | .aligned name bits data => ⟨name, bits, data⟩
  | .unaligned name data => ⟨name, 8, data⟩

/-- The draft that takes an offer, or why it is refused. -/
def Offer.add (draft : Draft) : Offer → Except Error Draft
  | .aligned name bits data => draft.add name bits data
  | .unaligned name data => draft.addUnaligned name data

/-- The draft after an offer, which is the same if the offer was refused, and the outcome. -/
def offer (draft : Draft) (o : Offer) : Draft × Except Error Unit :=
  match o.add draft with
  | .ok next => (next, .ok ())
  | .error e => (draft, .error e)

/-- The draft after offers, taken or refused. -/
def offerAll (draft : Draft) (offers : List Offer) : Draft :=
  offers.foldl (fun draft o ↦ (draft.offer o).1) draft

/-- What keeps a region from being taken behind others: its name first, then its alignment. -/
def refusal? (before : List Region) (region : Region) : Option Error :=
  if region.name ∈ before.map Region.name then some (.duplicateName region.name)
  else if region.alignment ∈ [8, 16, 32, 64] then none
  else some (.invalidAlignment region.alignment)

/-- The regions that are taken, in the order in which they were offered. -/
def taken (offers : List Offer) : List Region :=
  offers.foldl
    (fun before o ↦ if refusal? before o.region = none then before ++ [o.region] else before) []

variable {magic : List UInt8} {regions : List Region} {draft : Draft}

theorem taken_append_singleton (offers : List Offer) (o : Offer) :
    taken (offers ++ [o]) =
      if refusal? (taken offers) o.region = none then taken offers ++ [o.region]
      else taken offers := by
  rw [taken, List.foldl_append, List.foldl_cons, List.foldl_nil, ← taken]

theorem offerAll_append_singleton (offers : List Offer) (o : Offer) :
    draft.offerAll (offers ++ [o]) = ((draft.offerAll offers).offer o).1 := by
  rw [offerAll, List.foldl_append, List.foldl_cons, List.foldl_nil, ← offerAll]

theorem Offer.add_eq (o : Offer) :
    o.add draft = draft.add o.region.name o.region.alignment o.region.data := by
  cases o <;> rfl

/-- A region is refused just for the reason that the regions before it give. -/
theorem Holds.add_eq (hholds : draft.Holds magic regions) (region : Region) :
    (∃ next, refusal? regions region = none ∧
      draft.add region.name region.alignment region.data = .ok next) ∨
    ∃ e, refusal? regions region = some e ∧
      draft.add region.name region.alignment region.data = .error e := by
  have hnames : draft.entries.any (·.name == region.name) ↔
      region.name ∈ regions.map Region.name := by
    rw [← map_name_eq hholds.lists, List.any_eq_true, List.mem_map]
    simp only [beq_iff_eq]
  have hallowed : region.alignment ∈ alignments ↔ region.alignment ∈ [8, 16, 32, 64] := Iff.rfl
  rw [refusal?, Draft.add]
  by_cases hname : region.name ∈ regions.map Region.name
  · right
    rw [if_pos hname, if_pos (hnames.mpr hname)]
    exact ⟨_, rfl, rfl⟩
  rw [if_neg hname, if_neg (mt hnames.mp hname)]
  by_cases hbits : region.alignment ∈ [8, 16, 32, 64]
  · left
    rw [if_pos hbits, if_neg (not_not.mpr (hallowed.mpr hbits))]
    exact ⟨_, rfl, rfl⟩
  · right
    rw [if_neg hbits, if_pos (mt hallowed.mp hbits)]
    exact ⟨_, rfl, rfl⟩

end Draft

/-! ### Spacing -/

/-- The entry names a region and tells its size, and places it at a multiple of its alignment. -/
def Entry.Places (e : Entry) (region : Draft.Region) : Prop :=
  e.name = region.name ∧ e.size = region.data.length ∧ e.offset % (region.alignment / 8) = 0

/-- The byte at a position belongs to the region of the entry. -/
def Entry.Covers (e : Entry) (position : ℕ) : Prop :=
  e.offset ≤ position ∧ position < e.offset + e.size

namespace Draft

variable {magic : List UInt8} {regions : List Region} {draft : Draft}

/-- The regions stand in the image one behind another and at multiples of their alignments, and the
bytes between them are zero. -/
structure Spaced (magic : List UInt8) (regions : List Region) (draft : Draft) : Prop where
  places : List.Forall₂ Entry.Places draft.entries regions
  apart : draft.entries.Pairwise fun e f ↦ e.offset + e.size ≤ f.offset
  zero_of_gap : ∀ position, magic.length ≤ position → position < draft.image.length →
    (∀ e ∈ draft.entries, ¬ e.Covers position) → draft.image[position]? = some 0

theorem spaced_empty (magic : List UInt8) : (empty magic).Spaced magic [] :=
  ⟨.nil, .nil, fun _ hstart hend ↦ absurd hend (Nat.not_lt.mpr hstart)⟩

/-- Padding ends at a multiple of the alignment. -/
theorem add_padding_mod {bits : ℕ} (hbits : bits ∈ alignments) (length : ℕ) :
    (length + padding bits length) % (bits / 8) = 0 := by
  simp only [alignments, List.mem_cons, List.not_mem_nil, or_false] at hbits
  rw [padding]
  rcases hbits with rfl | rfl | rfl | rfl <;> omega

theorem add_eq_ok {name : String} {bits : ℕ} {data : List UInt8} {next : Draft}
    (hadd : draft.add name bits data = .ok next) :
    bits ∈ alignments ∧ next =
      { image := draft.image ++ List.replicate (padding bits draft.image.length) 0 ++ data
        entries := draft.entries ++
          [⟨name, draft.image.length + padding bits draft.image.length, data.length⟩] } := by
  rw [Draft.add] at hadd
  split at hadd
  · exact absurd hadd (by simp)
  split at hadd
  · exact absurd hadd (by simp)
  next hbits =>
    exact ⟨not_not.mp hbits, (Except.ok.inj hadd).symm⟩

/-- A region that is taken stands behind all others, and the gap before it is filled with zeros. -/
theorem Spaced.add (hspaced : draft.Spaced magic regions) (hholds : draft.Holds magic regions)
    {name : String} {bits : ℕ} {data : List UInt8} {next : Draft}
    (hadd : draft.add name bits data = .ok next) :
    next.Spaced magic (regions ++ [⟨name, bits, data⟩]) := by
  obtain ⟨hbits, rfl⟩ := add_eq_ok hadd
  have hwithin : ∀ e ∈ draft.entries, e.offset + e.size ≤ draft.image.length := by
    intro e he
    obtain ⟨region, hlists⟩ := exists_lists_of_mem hholds.lists he
    exact hlists.le_image
  refine ⟨?_, ?_, fun position hstart hend hgap ↦ ?_⟩
  · exact List.rel_append hspaced.places (.cons ⟨rfl, rfl, add_padding_mod hbits _⟩ .nil)
  · rw [List.pairwise_append]
    refine ⟨hspaced.apart, List.pairwise_singleton _ _, fun e he f hf ↦ ?_⟩
    rw [List.mem_singleton.mp hf]
    exact (hwithin e he).trans (Nat.le_add_right _ _)
  · rw [List.forall_mem_append] at hgap
    obtain ⟨hgap, hlast⟩ := hgap
    have hbefore := hlast _ List.mem_cons_self
    simp only [Entry.Covers, List.length_append, List.length_replicate] at hbefore hend
    rw [List.append_assoc]
    by_cases hold : position < draft.image.length
    · rw [List.getElem?_append_left hold]
      exact hspaced.zero_of_gap position hstart hold hgap
    · -- The position is behind the old image and not in the new region, so it is in the padding.
      rw [List.getElem?_append_right (by omega), List.getElem?_append_left
        (by rw [List.length_replicate]; omega), List.getElem?_replicate_of_lt (by omega)]

/-- After any offers the draft holds the regions that were taken, spaced out. -/
theorem holds_offerAll (magic : List UInt8) (offers : List Offer) :
    ((empty magic).offerAll offers).Holds magic (taken offers) ∧
      ((empty magic).offerAll offers).Spaced magic (taken offers) := by
  induction offers using List.reverseRecOn with
  | nil => exact ⟨holds_empty magic, spaced_empty magic⟩
  | append_singleton offers o ih =>
    obtain ⟨hholds, hspaced⟩ := ih
    rw [offerAll_append_singleton, taken_append_singleton, offer, Offer.add_eq]
    rcases hholds.add_eq o.region with ⟨next, hnone, hadd⟩ | ⟨e, hsome, hadd⟩
    · rw [hadd, if_pos hnone]
      exact ⟨hholds.add hadd, hspaced.add hholds hadd⟩
    · rw [hadd, if_neg (by simp [hsome])]
      exact ⟨hholds, hspaced⟩

/-- The outcome of an offer depends on the regions taken before it, and on nothing else. -/
theorem outcome_offer (hholds : draft.Holds magic regions) (o : Offer) :
    (draft.offer o).2 = match refusal? regions o.region with
      | some e => .error e
      | none => .ok () := by
  rw [offer, Offer.add_eq]
  rcases hholds.add_eq o.region with ⟨next, hnone, hadd⟩ | ⟨e, hsome, hadd⟩
  · rw [hadd, hnone]
  · rw [hadd, hsome]

/-- A refused offer leaves the draft as it was. -/
theorem offer_eq_self_of_error {o : Offer} {e : Error} (herror : (draft.offer o).2 = .error e) :
    (draft.offer o).1 = draft := by
  rw [offer] at herror ⊢
  split
  · next hadd => simp [hadd] at herror
  · rfl

end Draft

/-! ### Reading back -/

/-- What a reader finds in a blob that holds regions: their directory in order, each region under
its name and nothing under other names; the magic, the regions in their order and then the
directory, which starts at `dataEnd`; and zeros in all the gaps. -/
structure Blob.Presents (magic : List UInt8) (regions : List Draft.Region) (dataEnd : ℕ)
    (blob : Blob) : Prop where
  places : List.Forall₂ Entry.Places blob.entries regions
  get?_region : ∀ region ∈ regions, blob.get? region.name = some region.data
  get?_other : ∀ name, name ∉ regions.map Draft.Region.name → blob.get? name = none
  magic_prefix : magic <+: blob.bytes
  directory : Blob.locateDirectory blob.bytes magic.length =
    .ok (dataEnd, encodeDirectory blob.entries)
  within : ∀ e ∈ blob.entries, magic.length ≤ e.offset ∧ e.offset + e.size ≤ dataEnd
  apart : blob.entries.Pairwise fun e f ↦ e.offset + e.size ≤ f.offset
  zero_of_gap : ∀ position, magic.length ≤ position → position < dataEnd →
    (∀ e ∈ blob.entries, ¬ e.Covers position) → blob.bytes[position]? = some 0

namespace Draft

variable {magic : List UInt8} {regions : List Region} {draft : Draft}

/-- No region is found under a name that was not taken. -/
theorem Holds.get?_eq_none (hholds : draft.Holds magic regions) {name : String}
    (hname : name ∉ regions.map Region.name) :
    (⟨draft.toBytes, draft.entries⟩ : Blob).get? name = none := by
  rw [Blob.get?, Option.map_eq_none_iff, entryNamed?, List.find?_eq_none]
  intro e he hsame
  rw [← map_name_eq hholds.lists] at hname
  exact hname (List.mem_map.mpr ⟨e, he, beq_iff_eq.mp hsame⟩)

theorem Holds.presents (hholds : draft.Holds magic regions) (hspaced : draft.Spaced magic regions)
    (hsize : draft.toBytes.length < UInt64.size) :
    Blob.Presents magic regions draft.image.length ⟨draft.toBytes, draft.entries⟩ := by
  obtain ⟨tail, htail⟩ := draft.exists_toBytes_eq
  refine ⟨hspaced.places, fun region hmem ↦ hholds.get?_toBytes hmem, fun name hname ↦
    hholds.get?_eq_none hname, ?_, locateDirectory_toBytes hsize hholds.magic_prefix.length_le,
    fun e he ↦ ?_, hspaced.apart, fun position hstart hend hgap ↦ ?_⟩
  · rw [htail]
    exact hholds.magic_prefix.trans (List.prefix_append _ _)
  · obtain ⟨region, hlists⟩ := exists_lists_of_mem hholds.lists he
    exact ⟨hlists.magic_le, hlists.le_image⟩
  · rw [htail, List.getElem?_append_left hend]
    exact hspaced.zero_of_gap position hstart hend hgap

/-- Whatever is offered to an empty draft, an offer is refused just if its name was taken before or
its alignment is none of 8, 16, 32 and 64 bits, and then changes nothing. The finished blob passes
its checks, opens with the magic and presents just the regions that were taken. A blob has fewer
bytes than its own eight-byte numbers can tell, as any that memory can hold. -/
theorem readBack_of_offers (magic : List UInt8) (offers : List Offer) :
    (∀ before o, before ++ [o] <+: offers →
      ((((empty magic).offerAll before).offer o).2 =
        match refusal? (taken before) o.region with
        | some e => .error e
        | none => .ok ()) ∧
      ∀ e, (((empty magic).offerAll before).offer o).2 = .error e →
        (((empty magic).offerAll before).offer o).1 = (empty magic).offerAll before) ∧
    (((empty magic).offerAll offers).toBytes.length < UInt64.size →
      verify ((empty magic).offerAll offers).toBytes = .ok () ∧
      ∃ blob dataEnd, Blob.ofBytes ((empty magic).offerAll offers).toBytes magic = .ok blob ∧
        blob.bytes = ((empty magic).offerAll offers).toBytes ∧
        blob.Presents magic (taken offers) dataEnd) := by
  refine ⟨fun before o _ ↦ ⟨?_, fun e herror ↦ offer_eq_self_of_error herror⟩, fun hsize ↦ ?_⟩
  · exact outcome_offer (holds_offerAll magic before).1 o
  · obtain ⟨hholds, hspaced⟩ := holds_offerAll magic offers
    exact ⟨verify_toBytes hsize, _, _, hholds.ofBytes_toBytes hsize, rfl,
      hholds.presents hspaced hsize⟩

/-- Two regions that are taken, and between and behind them an alignment that does not exist and a
name that is taken already. -/
def mixedOffers : List Offer :=
  [.aligned "x" 8 [1, 2], .aligned "y" 24 [3], .aligned "y" 64 [4], .unaligned "x" [5]]

/-- The name of a region that was refused for its alignment is taken later on. -/
theorem readBack_of_offers_mixed :
    ((empty [0xEF]).offerAll mixedOffers).toBytes.length < UInt64.size ∧
      taken mixedOffers = [⟨"x", 8, [1, 2]⟩, ⟨"y", 64, [4]⟩] ∧
      ∃ blob, Blob.ofBytes ((empty [0xEF]).offerAll mixedOffers).toBytes [0xEF] = .ok blob ∧
        blob.get? "x" = some [1, 2] ∧ blob.get? "y" = some [4] ∧ blob.get? "z" = none := by
  have htaken : taken mixedOffers = [⟨"x", 8, [1, 2]⟩, ⟨"y", 64, [4]⟩] := by decide
  have hlengths : (((empty [0xEF]).offerAll mixedOffers).image.length,
      (encodeDirectory ((empty [0xEF]).offerAll mixedOffers).entries).length) = (9, 58) := by cbv
  have hsize : ((empty [0xEF]).offerAll mixedOffers).toBytes.length < UInt64.size := by
    rw [length_toBytes, length_checked, length_body, (Prod.mk.inj hlengths).1,
      (Prod.mk.inj hlengths).2]
    decide
  obtain ⟨-, blob, dataEnd, hblob, -, hpresents⟩ :=
    (readBack_of_offers [0xEF] mixedOffers).2 hsize
  rw [htaken] at hpresents
  refine ⟨hsize, htaken, blob, hblob, ?_, ?_, hpresents.get?_other "z" (by decide)⟩
  · exact hpresents.get?_region ⟨"x", 8, [1, 2]⟩ (by decide)
  · exact hpresents.get?_region ⟨"y", 64, [4]⟩ (by decide)

end Draft

end KanaKanji.DataSet
