import Mathlib
import KanaKanji.DataSet.Blob
import KanaKanji.Proofs.DataSet.Corruption
import KanaKanji.Proofs.DataSet.RoundTrip
import KanaKanji.Proofs.Guarded
import KanaKanji.Proofs.Outcomes

/-!
# Blobs within bounds

A blob that is opened may have been written by anyone: its checksum is easy to forge, and the size
of the directory, the number of entries and their offsets and sizes are any 64-bit numbers. What
opening has checked is that the blob is the magic, a data area, a directory and a tail
(`Blob.PartsInto`, `exists_partsInto_of_ofBytes`), and that the regions of the directory lie within
the area.

Opening and reading are carried out again in 64-bit numbers, with a fault for a sum or a difference
that is none and for bytes past the end (`Guarded.ofBytes`, `Guarded.get?`). A number that is read
fits in 64 bits (`fits_of_decodeDirectory?`), and the walk back from the end subtracts nothing that
was not checked to be smaller, so there is no fault for any bytes (`Guarded.ofBytes_eq`).
`handsOut_of_ofBytes` puts this together.
-/

set_option autoImplicit false

namespace KanaKanji

theorem LittleEndian.lt_capacity_of_take? {width value : ℕ} {bytes rest : List UInt8}
    (htake : take? width bytes = some (value, rest)) : value < capacity width := by
  obtain ⟨⟨front, back⟩, hsplit, hvalue⟩ := Option.map_eq_some_iff.mp htake
  rw [splitAt?, Option.ite_none_right_eq_some, Option.some.injEq] at hsplit
  obtain ⟨rfl, -⟩ := Prod.mk.inj hsplit.2
  obtain ⟨rfl, -⟩ := Prod.mk.inj hvalue
  exact decode_take_lt width bytes

namespace DataSet

/-! ### Directories that are read -/

/-- The numbers of an entry that is read fit in eight bytes. -/
theorem Entry.fits_of_take? {bytes rest : List UInt8} {e : Entry}
    (htake : Entry.take? bytes = some (e, rest)) : e.Fits := by
  simp only [Entry.take?, Option.bind_eq_bind, Option.bind_eq_some_iff, Prod.exists,
    Option.pure_def, Option.some.injEq, Prod.mk.injEq] at htake
  obtain ⟨length, front, hlength, name, back, hname, text, htext, offset, front', hoffset, size,
    back', hsize, rfl, -⟩ := htake
  refine ⟨?_, LittleEndian.lt_capacity_of_take? hoffset, LittleEndian.lt_capacity_of_take? hsize⟩
  have hbound := LittleEndian.lt_capacity_of_take? hlength
  rw [LittleEndian.splitAt?, Option.ite_none_right_eq_some, Option.some.injEq] at hname
  obtain ⟨hle, hparts⟩ := hname
  rw [← Utf8.decode?_eq_some_iff.mp htext, ← (Prod.mk.inj hparts).1, List.length_take_of_le hle]
  exact hbound

theorem fits_of_takeEntries? {count : ℕ} {bytes : List UInt8} {entries : List Entry}
    (htake : takeEntries? count bytes = some entries) : ∀ e ∈ entries, e.Fits := by
  induction count generalizing bytes entries with
  | zero =>
    rw [takeEntries?, Option.some.injEq] at htake
    simp [← htake]
  | succ count ih =>
    simp only [takeEntries?, Option.bind_eq_bind, Option.bind_eq_some_iff, Prod.exists,
      Option.pure_def, Option.some.injEq] at htake
    obtain ⟨e, rest, hfirst, later, hlater, rfl⟩ := htake
    exact List.forall_mem_cons.mpr ⟨Entry.fits_of_take? hfirst, ih hlater⟩

theorem fits_of_decodeDirectory? {bytes : List UInt8} {entries : List Entry}
    (hentries : decodeDirectory? bytes = some entries) : ∀ e ∈ entries, e.Fits := by
  simp only [decodeDirectory?, Option.bind_eq_bind, Option.bind_eq_some_iff, Prod.exists]
    at hentries
  obtain ⟨count, rest, -, htake⟩ := hentries
  exact fits_of_takeEntries? htake

/-- The entry is the first of its name. -/
def FirstNamed (entries : List Entry) (name : String) (e : Entry) : Prop :=
  ∃ before after, entries = before ++ e :: after ∧ e.name = name ∧ name ∉ before.map Entry.name

theorem entryNamed?_eq_some_iff {entries : List Entry} {name : String} {e : Entry} :
    entryNamed? entries name = some e ↔ FirstNamed entries name e := by
  rw [entryNamed?, List.find?_eq_some_iff_append, FirstNamed]
  simp only [beq_iff_eq, List.mem_map, not_exists, not_and]
  constructor
  · rintro ⟨hname, before, after, hentries, hbefore⟩
    exact ⟨before, after, hentries, hname, fun other hother ↦ by simpa using hbefore other hother⟩
  · rintro ⟨before, after, hentries, hname, hbefore⟩
    exact ⟨hname, before, after, hentries, fun other hother ↦ by simpa using hbefore other hother⟩

theorem FirstNamed.mem {entries : List Entry} {name : String} {e : Entry}
    (hfirst : FirstNamed entries name e) : e ∈ entries :=
  List.mem_of_find?_eq_some (entryNamed?_eq_some_iff.mpr hfirst)

theorem exists_firstNamed {entries : List Entry} {e : Entry} (he : e ∈ entries) :
    ∃ first, FirstNamed entries e.name first := by
  obtain ⟨first, hfirst⟩ : ∃ first, entryNamed? entries e.name = some first := by
    rw [entryNamed?, ← Option.isSome_iff_exists, List.find?_isSome]
    exact ⟨e, he, beq_self_eq_true _⟩
  exact ⟨first, entryNamed?_eq_some_iff.mp hfirst⟩

/-! ### Accepted blobs -/

/-- A number in a field fits in 64 bits. -/
theorem decode_field_lt (bytes : List UInt8) :
    LittleEndian.decode (bytes.take sizeFieldLength) < UInt64.size :=
  LittleEndian.decode_take_lt sizeFieldLength bytes

/-- An accepted blob has fewer bytes than its own numbers can tell, since one of them tells it. -/
theorem length_lt_of_verify {bytes : List UInt8} (hverify : verify bytes = .ok ()) :
    bytes.length < UInt64.size := by
  obtain ⟨htail, hsize, -⟩ := verify_eq_ok_iff.mp hverify
  have hfields : sizeFieldLength = 8 ∧ tailLength = 20 := ⟨rfl, rfl⟩
  have hnumber := decode_field_lt (bytes.drop (bytes.length - sizeFieldLength))
  rwa [List.take_of_length_le (by rw [List.length_drop]; omega), ← storedSize, hsize] at hnumber

/-- A blob is the magic, the data area, the directory and a tail that tells the size of the
directory, and its regions lie within the area. -/
structure Blob.PartsInto (magic area directory tail : List UInt8) (blob : Blob) : Prop where
  bytes_eq : blob.bytes = magic ++ (area ++ (directory ++ tail))
  length_tail : tail.length = tailLength
  size_directory : LittleEndian.decode (tail.take sizeFieldLength) = directory.length
  entries_eq : decodeDirectory? directory = some blob.entries
  within : ∀ e ∈ blob.entries,
    magic.length ≤ e.offset ∧ e.offset + e.size ≤ (magic ++ area).length

open Outcomes in
/-- What opening a blob has checked. -/
theorem ofBytes_eq_ok {bytes magic : List UInt8} {blob : Blob}
    (hopen : Blob.ofBytes bytes magic = .ok blob) :
    verify bytes = .ok () ∧ magic <+: bytes ∧ ∃ dataEnd directory,
      Blob.locateDirectory bytes magic.length = .ok (dataEnd, directory) ∧
        decodeDirectory? directory = some blob.entries ∧
        ∀ e ∈ blob.entries, Blob.inBounds magic.length dataEnd e := by
  simp only [Blob.ofBytes, bind_eq_ok_iff, ite_throw_eq_ok_iff, not_not] at hopen
  obtain ⟨⟨⟩, hverify, ⟨dataEnd, directory⟩, hlocate, hprefix, hrest⟩ := hopen
  refine ⟨hverify, hprefix, dataEnd, directory, hlocate, ?_⟩
  split at hrest
  · exact absurd hrest (by simp [throw, throwThe, MonadExceptOf.throw])
  next entries hentries =>
  split at hrest
  · exact absurd hrest (by simp [throw, throwThe, MonadExceptOf.throw])
  next hnone =>
  obtain rfl := pure_eq_ok_iff.mp hrest
  exact ⟨hentries, fun e he ↦ by simpa using List.find?_eq_none.mp hnone e he⟩

theorem exists_partsInto_of_ofBytes {bytes magic : List UInt8} {blob : Blob}
    (hopen : Blob.ofBytes bytes magic = .ok blob) :
    ∃ area directory tail, blob.PartsInto magic area directory tail := by
  obtain ⟨hverify, ⟨rest, hrest⟩, dataEnd, directory, hlocate, hentries, hwithin⟩ :=
    ofBytes_eq_ok hopen
  obtain ⟨htail, -, -⟩ := verify_eq_ok_iff.mp hverify
  unfold Blob.locateDirectory at hlocate
  extract_lets sizeAt size at hlocate
  split at hlocate
  case isFalse => exact absurd hlocate (by simp)
  next hsize =>
  obtain ⟨rfl, rfl⟩ := Prod.mk.inj (Except.ok.inj hlocate)
  -- What stands before the directory begins with the magic.
  have hmagic : bytes.take (sizeAt - size) = magic ++ rest.take (sizeAt - size - magic.length) := by
    rw [← hrest, List.take_append, List.take_of_length_le (by omega)]
  have hlength : (bytes.take (sizeAt - size)).length = sizeAt - size := by
    rw [List.length_take]
    omega
  refine ⟨rest.take (sizeAt - size - magic.length), (bytes.drop (sizeAt - size)).take size,
    bytes.drop sizeAt, ?_, ?_, ?_, hentries, fun e he ↦ ?_⟩
  · have hback : (bytes.drop (sizeAt - size)).drop size = bytes.drop sizeAt := by
      rw [List.drop_drop]
      congr 1
      omega
    rw [Blob.bytes_ofBytes hopen, ← List.append_assoc, ← hmagic, ← hback, List.take_append_drop,
      List.take_append_drop]
  · rw [List.length_drop]
    omega
  · rw [List.length_take, List.length_drop]
    omega
  · have hbounds := hwithin e he
    rw [Blob.inBounds, Bool.and_eq_true, decide_eq_true_eq, decide_eq_true_eq] at hbounds
    rwa [← hmagic, hlength]

/-- The region found under a name is the one of the first entry of that name. -/
theorem get?_eq_some_of_firstNamed {blob : Blob} {name : String} {e : Entry}
    (hfirst : FirstNamed blob.entries name e) :
    blob.get? name = some ((blob.bytes.drop e.offset).take e.size) := by
  rw [Blob.get?, entryNamed?_eq_some_iff.mpr hfirst, Option.map_some]

theorem get?_eq_none_of_notMem {blob : Blob} {name : String}
    (hname : name ∉ blob.entries.map Entry.name) : blob.get? name = none := by
  rw [Blob.get?, Option.map_eq_none_iff, entryNamed?, List.find?_eq_none]
  exact fun e he hsame ↦ hname (List.mem_map.mpr ⟨e, he, beq_iff_eq.mp hsame⟩)

/-! ### 64-bit numbers -/

/-- What ends the reading of a blob early: the blob is refused, or the machine stops. -/
inductive Stop
  | refused (cause : Error)
  | fault (cause : Fault)

namespace Guarded

open KanaKanji.Guarded Outcomes

/-- A guarded step while a blob is read. -/
def step {α : Type} (x : Except Fault α) : Except Stop α := x.mapError .fault

/-- The 64-bit number at a place. -/
def numberAt (bytes : List UInt8) (place : UInt64) : Except Fault UInt64 := do
  let rest ← slice bytes place.toNat bytes.length
  let field ← slice rest 0 sizeFieldLength
  return UInt64.ofNat (LittleEndian.decode field)

/-- Checks the size and the checksum that stand at the end of a blob. -/
def verify (bytes : List UInt8) : Except Stop Unit :=
  let size := UInt64.ofNat bytes.length
  if size < UInt64.ofNat tailLength then .error (.refused .truncated)
  else do
    let sizeAt ← step (sub size (UInt64.ofNat sizeFieldLength))
    let expected ← step (numberAt bytes sizeAt)
    if expected ≠ size then .error (.refused (.sizeMismatch expected.toNat size.toNat))
    else do
      let checksumAt ← step (sub sizeAt (UInt64.ofNat checksumLength))
      let field ← step (slice bytes checksumAt.toNat sizeAt.toNat)
      let checked ← step (slice bytes 0 checksumAt.toNat)
      let stored := LittleEndian.decode field
      let computed := (Crc32.checksum checked).toNat
      if stored ≠ computed then .error (.refused (.checksumMismatch stored computed))
      else .ok ()

/-- Whether a region lies behind the magic and ends before the directory; a region whose end is no
64-bit number does not. -/
def inBounds (magicLength dataEnd : UInt64) (e : Entry) : Bool :=
  magicLength ≤ UInt64.ofNat e.offset &&
    (add (UInt64.ofNat e.offset) (UInt64.ofNat e.size)).toOption.any (· ≤ dataEnd)

/-- The entries of a directory if they all are in bounds. -/
def boundedEntries (magicLength dataEnd : UInt64) (directory : List UInt8) :
    Except Stop (List Entry) :=
  match decodeDirectory? directory with
  | none => .error (.refused .malformedDirectory)
  | some entries =>
    match entries.find? fun e ↦ !inBounds magicLength dataEnd e with
    | some e => .error (.refused (.entryOutOfBounds e.name))
    | none => .ok entries

/-- The data set in the bytes, with the magic that it has to start with. -/
def ofBytes (bytes magic : List UInt8) : Except Stop Blob := do
  verify bytes
  let magicLength := UInt64.ofNat magic.length
  let sizeAt ← step (sub (UInt64.ofNat bytes.length) (UInt64.ofNat tailLength))
  let size ← step (numberAt bytes sizeAt)
  match (sub sizeAt size).toOption.filter (magicLength ≤ ·) with
  | none => .error (.refused .truncated)
  | some dataEnd =>
    if ¬ magic <+: bytes then .error (.refused .invalidMagic)
    else do
      let directory ← step (slice bytes dataEnd.toNat sizeAt.toNat)
      let entries ← boundedEntries magicLength dataEnd directory
      return ⟨bytes, entries⟩

/-- The bytes of the first region of a name, if they stand in the blob. -/
def get? (blob : Blob) (name : String) : Except Fault (Option (List UInt8)) :=
  match entryNamed? blob.entries name with
  | none => .ok none
  | some e => do
    let stop ← add (UInt64.ofNat e.offset) (UInt64.ofNat e.size)
    return (slice blob.bytes e.offset stop.toNat).toOption

theorem step_ok {α : Type} (a : α) : step (.ok a) = .ok a := rfl

variable {bytes magic : List UInt8}

theorem numberAt_eq_ok {place : ℕ} (hplace : place + sizeFieldLength ≤ bytes.length)
    (hbytes : bytes.length < UInt64.size) :
    numberAt bytes (UInt64.ofNat place) =
      .ok (UInt64.ofNat (LittleEndian.decode ((bytes.drop place).take sizeFieldLength))) := by
  rw [numberAt, UInt64.toNat_ofNat_of_lt' (by omega), slice_eq_ok (by omega) le_rfl, ok_bind,
    slice_eq_ok (Nat.zero_le _) (by rw [List.length_take, List.length_drop]; omega), ok_bind,
    List.drop_zero, Nat.sub_zero, List.take_take, min_eq_left (by omega)]
  rfl

theorem verify_eq (hbytes : bytes.length < UInt64.size) :
    verify bytes = (DataSet.verify bytes).mapError .refused := by
  have hfields : sizeFieldLength = 8 ∧ checksumLength = 4 ∧ tailLength = 20 := ⟨rfl, rfl, rfl⟩
  unfold verify DataSet.verify
  dsimp only
  by_cases htail : bytes.length < tailLength
  · rw [if_pos htail, if_pos ((UInt64.ofNat_lt_iff_lt hbytes (by decide)).mpr htail)]
    rfl
  have hdrop : (bytes.drop (bytes.length - sizeFieldLength)).take sizeFieldLength =
      bytes.drop (bytes.length - sizeFieldLength) := by
    rw [List.take_of_length_le]
    rw [List.length_drop]
    omega
  have hnumber := decode_field_lt (bytes.drop (bytes.length - sizeFieldLength))
  rw [hdrop] at hnumber
  rw [if_neg htail, if_neg (mt (UInt64.ofNat_lt_iff_lt hbytes (by decide)).mp htail),
    sub_ofNat hbytes (by omega), step_ok, ok_bind, numberAt_eq_ok (by omega) hbytes, step_ok,
    ok_bind, hdrop]
  by_cases hsize : LittleEndian.decode (bytes.drop (bytes.length - sizeFieldLength)) ≠ bytes.length
  · rw [if_pos hsize, if_pos ((ofNat_ne_ofNat_iff hnumber hbytes).mpr hsize),
      UInt64.toNat_ofNat_of_lt' hnumber, UInt64.toNat_ofNat_of_lt' hbytes]
    rfl
  rw [if_neg hsize, if_neg (mt (ofNat_ne_ofNat_iff hnumber hbytes).mp hsize),
    sub_ofNat (by omega) (by omega), step_ok, ok_bind, UInt64.toNat_ofNat_of_lt' (by omega),
    UInt64.toNat_ofNat_of_lt' (by omega), slice_eq_ok (by omega) (by omega), step_ok, ok_bind,
    slice_eq_ok (by omega) (by omega), step_ok, ok_bind]
  have hwidth : bytes.length - sizeFieldLength - (bytes.length - sizeFieldLength - checksumLength) =
      checksumLength := by omega
  rw [List.drop_zero, Nat.sub_zero, hwidth]
  split <;> rfl

/-- A region is in bounds by 64-bit numbers just if it is by numbers of any size. -/
theorem inBounds_eq {e : Entry} {magicLength dataEnd : ℕ} (he : e.Fits)
    (hmagic : magicLength < UInt64.size) (hend : dataEnd < UInt64.size) :
    inBounds (UInt64.ofNat magicLength) (UInt64.ofNat dataEnd) e =
      Blob.inBounds magicLength dataEnd e := by
  have hoffset := UInt64.ofNat_le_iff_le hmagic he.offset_lt
  rw [inBounds, Blob.inBounds, Bool.eq_iff_iff]
  simp only [Bool.and_eq_true, decide_eq_true_eq, hoffset]
  refine and_congr_right fun _ ↦ ?_
  by_cases hsum : e.offset + e.size < UInt64.size
  · rw [add_ofNat hsum, Except.toOption, Option.any_some, decide_eq_true_eq,
      UInt64.ofNat_le_iff_le hsum hend]
  · rw [add_eq_error he.offset_lt he.size_lt (by omega)]
    simp only [Except.toOption, Option.any_none, Bool.false_eq_true, false_iff]
    omega

theorem find?_inBounds {entries : List Entry} {magicLength dataEnd : ℕ}
    (hentries : ∀ e ∈ entries, e.Fits) (hmagic : magicLength < UInt64.size)
    (hend : dataEnd < UInt64.size) :
    (entries.find? fun e ↦ !inBounds (UInt64.ofNat magicLength) (UInt64.ofNat dataEnd) e) =
      entries.find? fun e ↦ !Blob.inBounds magicLength dataEnd e :=
  List.find?_congr fun e he ↦ by rw [inBounds_eq (hentries e he) hmagic hend]

/-- Where the directory starts, if it does not reach into the magic. -/
theorem filter_sub_eq {a b c : ℕ} (ha : a < UInt64.size) (hb : b < UInt64.size)
    (hc : c < UInt64.size) :
    (sub (UInt64.ofNat a) (UInt64.ofNat b)).toOption.filter (UInt64.ofNat c ≤ ·) =
      if b + c ≤ a then some (UInt64.ofNat (a - b)) else none := by
  by_cases hle : b ≤ a
  · rw [sub_ofNat ha hle, Except.toOption]
    by_cases hbehind : b + c ≤ a
    · rw [if_pos hbehind, Option.filter_some_pos]
      rw [decide_eq_true_eq, UInt64.ofNat_le_iff_le hc (by omega)]
      omega
    · rw [if_neg hbehind, Option.filter_some_neg]
      rw [decide_eq_false_iff_not, UInt64.ofNat_le_iff_le hc (by omega)]
      omega
  · rw [sub_eq_error ha hb (by omega), if_neg (by omega)]
    rfl

theorem ofBytes_eq (hbytes : bytes.length < UInt64.size) (hmagic : magic.length < UInt64.size) :
    ofBytes bytes magic = (Blob.ofBytes bytes magic).mapError .refused := by
  rw [ofBytes, verify_eq hbytes, Blob.ofBytes]
  rcases hverify : DataSet.verify bytes with e | ⟨⟩
  · rfl
  have hfields : sizeFieldLength = 8 ∧ tailLength = 20 := ⟨rfl, rfl⟩
  obtain ⟨htail, -, -⟩ := verify_eq_ok_iff.mp hverify
  have hsize := decode_field_lt (bytes.drop (bytes.length - tailLength))
  rw [Except.mapError, ok_bind, ok_bind, Blob.locateDirectory, sub_ofNat hbytes (by omega), step_ok,
    ok_bind, numberAt_eq_ok (by omega) hbytes, step_ok, ok_bind]
  dsimp only
  rw [filter_sub_eq (by omega) hsize hmagic]
  by_cases hstart : LittleEndian.decode ((bytes.drop (bytes.length - tailLength)).take
      sizeFieldLength) + magic.length ≤ bytes.length - tailLength
  · rw [if_pos hstart, if_pos hstart, ok_bind]
    dsimp only
    by_cases hprefix : magic <+: bytes
    case neg =>
      rw [if_pos hprefix, if_pos hprefix]
      rfl
    rw [if_neg (not_not.mpr hprefix), if_neg (not_not.mpr hprefix),
      UInt64.toNat_ofNat_of_lt' (by omega), UInt64.toNat_ofNat_of_lt' (by omega),
      slice_eq_ok (by omega) (by omega), step_ok, ok_bind, Nat.sub_sub_self (by omega),
      boundedEntries]
    rcases hentries : decodeDirectory? _ with _ | entries
    · rfl
    dsimp only
    rw [find?_inBounds (fits_of_decodeDirectory? hentries) hmagic (by omega)]
    rcases entries.find? _ with _ | e
    · rfl
    · rfl
  · rw [if_neg hstart, if_neg hstart]
    rfl

/-- Where a region lies in the blob, the sum that tells its end is a 64-bit number. -/
theorem get?_eq_ok {area directory tail : List UInt8} {blob : Blob}
    (hparts : blob.PartsInto magic area directory tail) (hbytes : blob.bytes.length < UInt64.size)
    (name : String) : get? blob name = .ok (blob.get? name) := by
  rw [get?, Blob.get?]
  rcases hentry : entryNamed? blob.entries name with _ | e
  · rfl
  have he : e ∈ blob.entries := List.mem_of_find?_eq_some hentry
  have hend : e.offset + e.size ≤ blob.bytes.length := by
    rw [hparts.bytes_eq, ← List.append_assoc, List.length_append]
    exact (hparts.within e he).2.trans (Nat.le_add_right _ _)
  dsimp only
  rw [add_ofNat (by omega), ok_bind, UInt64.toNat_ofNat_of_lt' (by omega),
    slice_eq_ok (Nat.le_add_right _ _) hend, Nat.add_sub_cancel_left]
  rfl

end Guarded

/-! ### What is handed out -/

/-- An accepted blob begins with the magic, and a directory and a tail stand behind its data area.
Under the name of an entry it hands out the region of the first entry of that name, which lies
between the magic and the directory, and it hands out nothing under other names. Neither opening any
bytes nor reading from what was accepted leaves the 64-bit numbers or the bytes; the bytes given are
fewer than such numbers can tell, as any that memory can hold. -/
theorem handsOut_of_ofBytes (bytes magic : List UInt8) :
    (∀ blob, Blob.ofBytes bytes magic = .ok blob →
      magic <+: bytes ∧ ∃ area directory tail dataEnd,
        bytes = magic ++ (area ++ (directory ++ tail)) ∧ tail.length = tailLength ∧
        dataEnd = (magic ++ area).length ∧
        LittleEndian.decode (tail.take sizeFieldLength) = directory.length ∧
        decodeDirectory? directory = some blob.entries ∧
        (∀ e ∈ blob.entries, ∃ first, FirstNamed blob.entries e.name first ∧
          blob.get? e.name = some ((bytes.drop first.offset).take first.size) ∧
          magic.length ≤ first.offset ∧ first.offset + first.size ≤ dataEnd) ∧
        (∀ name, name ∉ blob.entries.map Entry.name → blob.get? name = none) ∧
        ∀ name, Guarded.get? blob name = .ok (blob.get? name)) ∧
    (bytes.length < UInt64.size → magic.length < UInt64.size →
      Guarded.ofBytes bytes magic = (Blob.ofBytes bytes magic).mapError .refused) := by
  refine ⟨fun blob hopen ↦ ?_, Guarded.ofBytes_eq⟩
  obtain ⟨area, directory, tail, hparts⟩ := exists_partsInto_of_ofBytes hopen
  obtain ⟨hverify, hmagic, -⟩ := ofBytes_eq_ok hopen
  have hbytes := Blob.bytes_ofBytes hopen
  have hlength : blob.bytes.length < UInt64.size := by
    rw [hbytes]
    exact length_lt_of_verify hverify
  refine ⟨hmagic, area, directory, tail, _, hbytes ▸ hparts.bytes_eq, hparts.length_tail, rfl,
    hparts.size_directory, hparts.entries_eq, fun e he ↦ ?_, fun name hname ↦
    get?_eq_none_of_notMem hname, Guarded.get?_eq_ok hparts hlength⟩
  obtain ⟨first, hfirst⟩ := exists_firstNamed he
  refine ⟨first, hfirst, ?_, hparts.within first hfirst.mem⟩
  rw [get?_eq_some_of_firstNamed hfirst, hbytes]

/-- Three regions that overlap, two of them of one name. -/
def overlapping : Draft := ⟨defaultMagic ++ [1, 2, 3], [⟨"a", 7, 3⟩, ⟨"b", 8, 2⟩, ⟨"a", 8, 1⟩]⟩

/-- A region whose end is no 64-bit number. -/
def endless : Draft := ⟨defaultMagic ++ [1, 2, 3], [⟨"a", 7, 18446744073709551615⟩]⟩

/-- Of the regions of one name the first is handed out. A region without end is refused. -/
theorem handsOut_of_ofBytes_overlapping :
    (∃ blob, Blob.ofBytes overlapping.toBytes defaultMagic = .ok blob ∧
      Guarded.get? blob "a" = .ok (some [1, 2, 3]) ∧ Guarded.get? blob "b" = .ok (some [2, 3]) ∧
      Guarded.get? blob "c" = .ok none) ∧
    endless.toBytes.length < UInt64.size ∧ defaultMagic.length < UInt64.size ∧
    Guarded.ofBytes endless.toBytes defaultMagic = .error (.refused (.entryOutOfBounds "a")) := by
  have hmagic : defaultMagic.length < UInt64.size := by decide
  have hopen : Blob.ofBytes overlapping.toBytes defaultMagic =
      .ok ⟨overlapping.toBytes, overlapping.entries⟩ := by
    refine (Draft.ofBytes_toBytes_eq ?_ ⟨_, rfl⟩ (by decide)).trans rfl
    rw [Draft.length_toBytes, Draft.length_checked, Draft.length_body]
    decide
  have hendless : endless.toBytes.length < UInt64.size := by
    rw [Draft.length_toBytes, Draft.length_checked, Draft.length_body]
    decide
  have hrefused : Blob.ofBytes endless.toBytes defaultMagic = .error (.entryOutOfBounds "a") :=
    (Draft.ofBytes_toBytes_eq hendless ⟨_, rfl⟩ (by decide)).trans rfl
  obtain ⟨-, _, _, _, _, -, -, -, -, -, -, -, hget⟩ :=
    (handsOut_of_ofBytes overlapping.toBytes defaultMagic).1 _ hopen
  refine ⟨⟨_, hopen, ?_, ?_, ?_⟩, hendless, hmagic, ?_⟩
  · rw [hget]
    rfl
  · rw [hget]
    rfl
  · rw [hget]
    rfl
  · rw [(handsOut_of_ofBytes endless.toBytes defaultMagic).2 hendless hmagic, hrefused]
    rfl

end DataSet

end KanaKanji
