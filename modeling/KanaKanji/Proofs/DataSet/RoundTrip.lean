import Mathlib
import KanaKanji.DataSet.Blob
import KanaKanji.Proofs.Lists

/-!
# Reading back a data set

What is written down about a draft is `Draft.Holds`: the image begins with the magic, and the
directory lists each region that was taken, under its name and at the place where its bytes stand.
Taking a region keeps this (`Draft.Holds.add`, `Draft.Holds.addAll`), since an image only grows at
its end.

`Draft.Holds.exists_blob` is the round trip: a finished blob whose size its own eight-byte numbers
can tell opens with the magic of the draft, and each region reads back under its name. The checks
pass in the order in which the tail was written: total size, checksum, size of the directory,
directory.
-/

set_option autoImplicit false

namespace KanaKanji.DataSet

/-! ### Directories -/

theorem splitAt?_append {front : List UInt8} {count : ℕ} (hcount : front.length = count)
    (rest : List UInt8) : LittleEndian.splitAt? count (front ++ rest) = some (front, rest) := by
  rw [LittleEndian.splitAt?, if_pos (by rw [List.length_append]; omega), List.take_left' hcount,
    List.drop_left' hcount]

/-- The numbers of an entry fit in eight bytes. -/
structure Entry.Fits (e : Entry) : Prop where
  name_lt : (Utf8.encode e.name).length < UInt64.size
  offset_lt : e.offset < UInt64.size
  size_lt : e.size < UInt64.size

instance : DecidablePred Entry.Fits := fun e ↦
  decidable_of_iff
    ((Utf8.encode e.name).length < UInt64.size ∧ e.offset < UInt64.size ∧ e.size < UInt64.size)
    ⟨fun ⟨hname, hoffset, hsize⟩ ↦ ⟨hname, hoffset, hsize⟩,
      fun hfits ↦ ⟨hfits.name_lt, hfits.offset_lt, hfits.size_lt⟩⟩

/-- An entry written in front of anything reads back, and leaves what follows. -/
theorem Entry.take?_encode_append {e : Entry} (hfits : e.Fits) (rest : List UInt8) :
    Entry.take? (e.encode ++ rest) = some (e, rest) := by
  simp only [Entry.take?, Entry.encode, encodeNumber, List.append_assoc]
  rw [LittleEndian.take?_encode_append hfits.name_lt]
  simp only [Option.bind_eq_bind, Option.bind_some]
  rw [splitAt?_append rfl]
  simp only [Option.bind_some, Utf8.decode?_encode]
  rw [LittleEndian.take?_encode_append hfits.offset_lt]
  simp only [Option.bind_some]
  rw [LittleEndian.take?_encode_append hfits.size_lt]
  rfl

theorem takeEntries?_append {entries : List Entry} (hfits : ∀ e ∈ entries, e.Fits)
    (rest : List UInt8) :
    takeEntries? entries.length (entries.flatMap Entry.encode ++ rest) = some entries := by
  induction entries with
  | nil => rfl
  | cons e entries ih =>
    have hrest := ih fun e' he' ↦ hfits e' (List.mem_cons_of_mem _ he')
    rw [List.flatMap_cons, List.append_assoc, List.length_cons, takeEntries?,
      Entry.take?_encode_append (hfits e List.mem_cons_self)]
    simp only [Option.bind_eq_bind, Option.bind_some]
    rw [hrest]
    rfl

/-- A directory reads back from what was written. -/
theorem decodeDirectory?_encodeDirectory {entries : List Entry}
    (hcount : entries.length < UInt64.size) (hfits : ∀ e ∈ entries, e.Fits) :
    decodeDirectory? (encodeDirectory entries) = some entries := by
  rw [decodeDirectory?, encodeDirectory, encodeNumber, LittleEndian.take?_encode_append hcount]
  have hentries := takeEntries?_append hfits []
  rw [List.append_nil] at hentries
  exact hentries

theorem length_encode_pos (e : Entry) : 0 < e.encode.length := by
  simp only [Entry.encode, encodeNumber, List.length_append, LittleEndian.length_encode]
  omega

theorem length_name_le (e : Entry) : (Utf8.encode e.name).length ≤ e.encode.length := by
  simp only [Entry.encode, encodeNumber, List.length_append, LittleEndian.length_encode]
  omega

/-- A directory is longer than the number of its entries and than each of their names. -/
theorem length_le_encodeDirectory (entries : List Entry) :
    entries.length ≤ (encodeDirectory entries).length ∧
      ∀ e ∈ entries, (Utf8.encode e.name).length ≤ (encodeDirectory entries).length := by
  suffices hentries : entries.length ≤ (entries.flatMap Entry.encode).length ∧
      ∀ e ∈ entries, (Utf8.encode e.name).length ≤ (entries.flatMap Entry.encode).length by
    rw [encodeDirectory, List.length_append]
    exact ⟨hentries.1.trans (Nat.le_add_left _ _),
      fun e he ↦ (hentries.2 e he).trans (Nat.le_add_left _ _)⟩
  induction entries with
  | nil => exact ⟨le_rfl, by simp⟩
  | cons e entries ih =>
    have hpos := length_encode_pos e
    have hname := length_name_le e
    rw [List.flatMap_cons, List.length_append, List.length_cons]
    refine ⟨by omega, fun e' he' ↦ ?_⟩
    rcases List.mem_cons.mp he' with rfl | he'
    · omega
    · have := ih.2 e' he'
      omega

/-! ### Drafts -/

/-- The entry lists a region whose bytes stand in the image, behind its first so many bytes. -/
structure Entry.Lists (magicLength : ℕ) (image : List UInt8) (e : Entry) (region : Draft.Region) :
    Prop where
  name_eq : e.name = region.name
  size_eq : e.size = region.data.length
  magic_le : magicLength ≤ e.offset
  le_image : e.offset + e.size ≤ image.length
  data_eq : (image.drop e.offset).take e.size = region.data

/-- What is behind the image does not change what an entry lists. -/
theorem Entry.Lists.append {magicLength : ℕ} {image : List UInt8} {e : Entry}
    {region : Draft.Region} (hlists : e.Lists magicLength image region) (more : List UInt8) :
    e.Lists magicLength (image ++ more) region where
  name_eq := hlists.name_eq
  size_eq := hlists.size_eq
  magic_le := hlists.magic_le
  le_image := by
    have := hlists.le_image
    rw [List.length_append]
    omega
  data_eq := by
    rw [Lists.take_drop_append hlists.le_image]
    exact hlists.data_eq

namespace Draft

/-- A draft with the magic that holds the regions, and no others. -/
structure Holds (magic : List UInt8) (regions : List Region) (draft : Draft) : Prop where
  magic_prefix : magic <+: draft.image
  lists : List.Forall₂ (Entry.Lists magic.length draft.image) draft.entries regions
  nodup_names : (regions.map Region.name).Nodup

theorem holds_empty (magic : List UInt8) : (empty magic).Holds magic [] :=
  ⟨List.prefix_rfl, .nil, List.nodup_nil⟩

variable {magic : List UInt8} {regions : List Region} {draft : Draft}

theorem map_name_eq {image : List UInt8} {entries : List Entry}
    (hlists : List.Forall₂ (Entry.Lists magic.length image) entries regions) :
    entries.map Entry.name = regions.map Region.name := by
  induction hlists with
  | nil => rfl
  | cons hfirst _ ih => rw [List.map_cons, List.map_cons, hfirst.name_eq, ih]

/-- A region that is taken stands behind the image, which is otherwise as it was. -/
theorem Holds.add (hholds : draft.Holds magic regions) {name : String} {bits : ℕ}
    {data : List UInt8} {draft' : Draft} (hadd : draft.add name bits data = .ok draft') :
    draft'.Holds magic (regions ++ [⟨name, bits, data⟩]) := by
  rw [Draft.add] at hadd
  by_cases hname : draft.entries.any (·.name == name)
  · rw [if_pos hname] at hadd
    exact absurd hadd (by simp)
  by_cases hbits : bits ∉ alignments
  · rw [if_neg hname, if_pos hbits] at hadd
    exact absurd hadd (by simp)
  rw [if_neg hname, if_neg hbits] at hadd
  obtain rfl := Except.ok.inj hadd
  have hmagic := hholds.magic_prefix.length_le
  refine ⟨?_, ?_, ?_⟩
  · rw [List.append_assoc]
    exact hholds.magic_prefix.trans (List.prefix_append _ _)
  · refine List.rel_append (hholds.lists.imp fun e region hlists ↦ ?_) (.cons ?_ .nil)
    · rw [List.append_assoc]
      exact hlists.append _
    · refine ⟨rfl, rfl, hmagic.trans (Nat.le_add_right _ _), ?_, ?_⟩
      · simp [Nat.add_assoc]
      have hfront : (draft.image ++ List.replicate (padding bits draft.image.length) 0).length =
          draft.image.length + padding bits draft.image.length := by
        rw [List.length_append, List.length_replicate]
      rw [List.drop_left' hfront, List.take_length]
  · rw [List.map_append, List.map_singleton, List.nodup_append]
    refine ⟨hholds.nodup_names, List.nodup_singleton _, ?_⟩
    rintro taken htaken _ hnew rfl
    rw [List.mem_singleton.mp hnew, ← map_name_eq hholds.lists] at htaken
    obtain ⟨e, he, hsame⟩ := List.mem_map.mp htaken
    exact hname (List.any_eq_true.mpr ⟨e, he, beq_iff_eq.mpr hsame⟩)

/-- Regions that are all taken, one after another, are all held. -/
theorem Holds.addAll (hholds : draft.Holds magic regions) {more : List Region} {draft' : Draft}
    (hadd : draft.addAll more = (draft', .ok ())) : draft'.Holds magic (regions ++ more) := by
  induction more generalizing draft regions with
  | nil =>
    rw [Draft.addAll] at hadd
    obtain rfl := congrArg Prod.fst hadd
    rwa [List.append_nil]
  | cons region more ih =>
    rw [Draft.addAll] at hadd
    split at hadd
    · next next hnext =>
      have hrest := ih (hholds.add hnext) hadd
      rwa [List.append_assoc] at hrest
    · exact absurd (congrArg Prod.snd hadd) (by simp)

/-- Every entry lists some region. -/
theorem exists_lists_of_mem {image : List UInt8} {entries : List Entry}
    (hlists : List.Forall₂ (Entry.Lists magic.length image) entries regions) {e : Entry}
    (hmem : e ∈ entries) : ∃ region, e.Lists magic.length image region := by
  induction hlists with
  | nil => exact absurd hmem List.not_mem_nil
  | cons hfirst _ ih =>
    rcases List.mem_cons.mp hmem with rfl | hmem
    · exact ⟨_, hfirst⟩
    · exact ih hmem

/-- The entry for a region's name is the one that lists the region. -/
theorem exists_entryNamed? {image : List UInt8} {entries : List Entry}
    (hlists : List.Forall₂ (Entry.Lists magic.length image) entries regions)
    (hnodup : (regions.map Region.name).Nodup) {region : Region} (hmem : region ∈ regions) :
    ∃ e, entryNamed? entries region.name = some e ∧ e.Lists magic.length image region := by
  induction hlists with
  | nil => exact absurd hmem List.not_mem_nil
  | @cons e first entries rest hfirst hrest ih =>
    rw [List.map_cons, List.nodup_cons] at hnodup
    rw [entryNamed?, List.find?_cons]
    rcases List.mem_cons.mp hmem with rfl | hmem
    · rw [hfirst.name_eq, beq_self_eq_true]
      exact ⟨e, rfl, hfirst⟩
    · have hdiffer : (e.name == region.name) = false := by
        rw [hfirst.name_eq, beq_eq_false_iff_ne]
        intro hsame
        exact hnodup.1 (hsame ▸ List.mem_map_of_mem hmem)
      rw [hdiffer]
      exact ih hnodup.2 hmem

/-! ### Blobs -/

/-- The bytes that the checksum of a finished blob is taken of. -/
def body (draft : Draft) : List UInt8 :=
  draft.image ++ encodeDirectory draft.entries ++
    encodeNumber (encodeDirectory draft.entries).length

/-- The bytes of a finished blob before its total size. -/
def checked (draft : Draft) : List UInt8 :=
  draft.body ++ LittleEndian.encode checksumLength (Crc32.checksum draft.body).toNat

theorem toBytes_eq (draft : Draft) :
    draft.toBytes = draft.checked ++ encodeNumber (draft.checked.length + sizeFieldLength) :=
  rfl

theorem length_checked (draft : Draft) :
    draft.checked.length = draft.body.length + checksumLength := by
  rw [checked, List.length_append, LittleEndian.length_encode]

theorem length_toBytes (draft : Draft) :
    draft.toBytes.length = draft.checked.length + sizeFieldLength := by
  rw [toBytes_eq, List.length_append, encodeNumber, LittleEndian.length_encode, sizeFieldLength]

theorem length_body (draft : Draft) :
    draft.body.length =
      draft.image.length + (encodeDirectory draft.entries).length + sizeFieldLength := by
  rw [body, List.length_append, List.length_append, encodeNumber, LittleEndian.length_encode,
    sizeFieldLength]

/-- A finished blob passes the checks of its size and its checksum. -/
theorem verify_toBytes (hsize : draft.toBytes.length < UInt64.size) :
    verify draft.toBytes = .ok () := by
  have hlength := draft.length_toBytes
  have hchecked := draft.length_checked
  have hbody := draft.length_body
  have hfields : sizeFieldLength = 8 ∧ checksumLength = 4 ∧ tailLength = 20 := ⟨rfl, rfl, rfl⟩
  have htotal : draft.toBytes.drop (draft.toBytes.length - sizeFieldLength) =
      encodeNumber draft.toBytes.length := by
    rw [hlength, Nat.add_sub_cancel, toBytes_eq, List.drop_left]
  have hsum : draft.toBytes.drop (draft.toBytes.length - sizeFieldLength - checksumLength) =
      LittleEndian.encode checksumLength (Crc32.checksum draft.body).toNat ++
        encodeNumber draft.toBytes.length := by
    rw [hlength, Nat.add_sub_cancel, hchecked, Nat.add_sub_cancel, toBytes_eq, checked,
      List.append_assoc, List.drop_left, ← checked, hchecked]
  have htaken : draft.toBytes.take (draft.toBytes.length - sizeFieldLength - checksumLength) =
      draft.body := by
    rw [hlength, Nat.add_sub_cancel, hchecked, Nat.add_sub_cancel, toBytes_eq, checked,
      List.append_assoc, List.take_left]
  simp only [verify]
  rw [if_neg (by omega), htotal, hsum, htaken, encodeNumber, LittleEndian.decode_encode hsize,
    if_neg (by simp), List.take_left' (LittleEndian.length_encode _ _),
    LittleEndian.decode_encode (Crc32.checksum draft.body).toNat_lt, if_neg (by simp)]

theorem exists_toBytes_eq (draft : Draft) :
    ∃ tail, draft.toBytes = draft.image ++ (encodeDirectory draft.entries ++
      (encodeNumber (encodeDirectory draft.entries).length ++ tail)) := by
  refine ⟨LittleEndian.encode checksumLength (Crc32.checksum draft.body).toNat ++
    encodeNumber (draft.checked.length + sizeFieldLength), ?_⟩
  rw [toBytes_eq, checked, body]
  simp only [List.append_assoc]

/-- The directory of a finished blob stands behind the image. -/
theorem locateDirectory_toBytes (hsize : draft.toBytes.length < UInt64.size) {magicLength : ℕ}
    (hmagic : magicLength ≤ draft.image.length) :
    Blob.locateDirectory draft.toBytes magicLength =
      .ok (draft.image.length, encodeDirectory draft.entries) := by
  obtain ⟨tail, htail⟩ := draft.exists_toBytes_eq
  have hlength := draft.length_toBytes
  have hchecked := draft.length_checked
  have hbody := draft.length_body
  have hfields : sizeFieldLength = 8 ∧ checksumLength = 4 ∧ tailLength = 20 := ⟨rfl, rfl, rfl⟩
  have hsizeAt : draft.toBytes.length - tailLength =
      (draft.image ++ encodeDirectory draft.entries).length := by
    rw [List.length_append]
    omega
  have hnumber : LittleEndian.decode ((draft.toBytes.drop
      (draft.toBytes.length - tailLength)).take sizeFieldLength) =
      (encodeDirectory draft.entries).length := by
    have hfield : (LittleEndian.encode 8 (encodeDirectory draft.entries).length).length =
        sizeFieldLength := LittleEndian.length_encode _ _
    rw [hsizeAt, htail, ← List.append_assoc, List.drop_left, encodeNumber,
      List.take_left' hfield, LittleEndian.decode_encode]
    show _ < UInt64.size
    omega
  rw [List.length_append] at hsizeAt
  have hstart : draft.toBytes.length - tailLength - (encodeDirectory draft.entries).length =
      draft.image.length := by
    omega
  simp only [Blob.locateDirectory, hnumber]
  rw [if_pos (by omega), hstart, htail, List.drop_left, List.take_left]

variable {regions : List Region} {magic : List UInt8}

/-- The numbers of a directory fit in eight bytes if the size of the blob does. -/
theorem Holds.fits (hholds : draft.Holds magic regions)
    (hsize : draft.toBytes.length < UInt64.size) : ∀ e ∈ draft.entries, e.Fits := by
  intro e he
  obtain ⟨region, hlists⟩ := exists_lists_of_mem hholds.lists he
  have hname := (length_le_encodeDirectory draft.entries).2 e he
  have hlength := draft.length_toBytes
  have hchecked := draft.length_checked
  have hbody := draft.length_body
  have himage := hlists.le_image
  exact ⟨by omega, by omega, by omega⟩

/-- A finished blob opens again, with the directory of the draft, unless a region is outside. -/
theorem ofBytes_toBytes_eq (hsize : draft.toBytes.length < UInt64.size)
    (hmagic : magic <+: draft.image) (hfits : ∀ e ∈ draft.entries, e.Fits) :
    Blob.ofBytes draft.toBytes magic =
      match draft.entries.find? fun e ↦ !Blob.inBounds magic.length draft.image.length e with
      | some e => .error (.entryOutOfBounds e.name)
      | none => .ok ⟨draft.toBytes, draft.entries⟩ := by
  have hlength := draft.length_toBytes
  have hchecked := draft.length_checked
  have hbody := draft.length_body
  have hcount := (length_le_encodeDirectory draft.entries).1
  obtain ⟨tail, htail⟩ := draft.exists_toBytes_eq
  have hprefix : magic <+: draft.toBytes := by
    rw [htail]
    exact hmagic.trans (List.prefix_append _ _)
  have hdirectory := decodeDirectory?_encodeDirectory (by omega) hfits
  simp only [Blob.ofBytes, verify_toBytes hsize, locateDirectory_toBytes hsize hmagic.length_le]
  simp only [bind, Except.bind, pure, Except.pure, hprefix, not_true_eq_false, if_false,
    hdirectory]
  rcases draft.entries.find? _ with _ | e <;> rfl

/-- A finished blob whose size eight bytes can tell opens again, with the directory of the draft. -/
theorem Holds.ofBytes_toBytes (hholds : draft.Holds magic regions)
    (hsize : draft.toBytes.length < UInt64.size) :
    Blob.ofBytes draft.toBytes magic = .ok ⟨draft.toBytes, draft.entries⟩ := by
  have hbounds : draft.entries.find?
      (fun e ↦ !Blob.inBounds magic.length draft.image.length e) = none := by
    rw [List.find?_eq_none]
    intro e he
    obtain ⟨region, hlists⟩ := exists_lists_of_mem hholds.lists he
    simp [Blob.inBounds, hlists.magic_le, hlists.le_image]
  rw [ofBytes_toBytes_eq hsize hholds.magic_prefix (hholds.fits hsize), hbounds]

/-- Each region reads back from a finished blob. -/
theorem Holds.get?_toBytes (hholds : draft.Holds magic regions) {region : Region}
    (hmem : region ∈ regions) :
    (⟨draft.toBytes, draft.entries⟩ : Blob).get? region.name = some region.data := by
  obtain ⟨e, hentry, hlists⟩ := exists_entryNamed? hholds.lists hholds.nodup_names hmem
  obtain ⟨tail, htail⟩ := draft.exists_toBytes_eq
  rw [Blob.get?, hentry, Option.map_some, htail, (hlists.append _).data_eq]

/-- A blob whose size eight bytes can tell opens again, and each region reads back. -/
theorem Holds.exists_blob (hholds : draft.Holds magic regions)
    (hsize : draft.toBytes.length < UInt64.size) :
    ∃ blob, Blob.ofBytes draft.toBytes magic = .ok blob ∧
      ∀ region ∈ regions, blob.get? region.name = some region.data :=
  ⟨_, hholds.ofBytes_toBytes hsize, fun _ hmem ↦ hholds.get?_toBytes hmem⟩

end Draft

end KanaKanji.DataSet
