import Mathlib
import KanaKanji.Lexicon.Search
import KanaKanji.Proofs.Lists
import KanaKanji.Proofs.Outcomes
import KanaKanji.Proofs.Text.ByteOrder

/-!
# Slots, records and the pool of surfaces

What is written into the areas of a lexicon reads back. A slot and a record stand in pieces of a
fixed size (`pieces_flatMap`) and keep their numbers, as far as these fit (`Slot.decode_encode`,
`Record.decode_encode`). The slots of lists in a row cut the same lists out of the table again
(`take_drop_slotsFrom`).

The pool only grows at its end, so a surface that stands somewhere stays there (`StandsAt.mono`).
`Pool.Holds` says that every place on record is right; placing words keeps this, and each record
written refers to the surface of its word (`placeWords_spec`).
-/

set_option autoImplicit false

namespace KanaKanji.Lexicon

open Outcomes

/-! ### Numbers and pieces -/

/-- A number written behind so many bytes is read from there. -/
theorem numberAt_of_eq {place width value : ℕ} {bytes front rest : List UInt8}
    (hbytes : bytes = front ++ (LittleEndian.encode width value ++ rest))
    (hplace : front.length = place) (hvalue : value < LittleEndian.capacity width) :
    numberAt place width bytes = value := by
  rw [numberAt, hbytes, List.drop_left' hplace,
    List.take_left' (LittleEndian.length_encode width value), LittleEndian.decode_encode hvalue]

theorem numberAt_lt (place width : ℕ) (bytes : List UInt8) :
    numberAt place width bytes < LittleEndian.capacity width :=
  LittleEndian.decode_take_lt width (bytes.drop place)

theorem Slot.length_encode (slot : Slot) : slot.encode.length = slotSize := by
  simp [Slot.encode, slotSize]

theorem Slot.decode_encode {slot : Slot} (hstart : slot.start < UInt32.size)
    (hcount : slot.count < UInt32.size) : Slot.decode slot.encode = slot := by
  have hfirst : numberAt 0 4 slot.encode = slot.start :=
    numberAt_of_eq (List.nil_append _).symm rfl hstart
  have hsecond : numberAt 4 4 slot.encode = slot.count :=
    numberAt_of_eq (by rw [List.append_nil]; rfl) (LittleEndian.length_encode 4 slot.start) hcount
  rw [Slot.decode, hfirst, hsecond]

theorem Record.length_encode (r : Record) : r.encode.length = recordSize := by
  simp [Record.encode, recordSize]

theorem Record.decode_encode {r : Record} (hoffset : r.offset < UInt32.size)
    (hsize : r.size < UInt16.size) : Record.decode r.encode = r := by
  have hfields : r.encode = LittleEndian.encode 4 r.offset ++ (LittleEndian.encode 2 r.size ++
      (LittleEndian.encode 2 r.cost.toUInt16.toNat ++ (LittleEndian.encode 2 r.leftId.toNat ++
        (LittleEndian.encode 2 r.rightId.toNat ++ [])))) := by
    simp [Record.encode]
  have hfirst : numberAt 0 4 r.encode = r.offset :=
    numberAt_of_eq (hfields.trans (List.nil_append _).symm) rfl hoffset
  have hsecond : numberAt 4 2 r.encode = r.size :=
    numberAt_of_eq hfields (LittleEndian.length_encode 4 r.offset) hsize
  rw [← List.append_assoc] at hfields
  have hthird : numberAt 6 2 r.encode = r.cost.toUInt16.toNat :=
    numberAt_of_eq hfields (by simp) r.cost.toUInt16.toNat_lt
  rw [← List.append_assoc] at hfields
  have hfourth : numberAt 8 2 r.encode = r.leftId.toNat :=
    numberAt_of_eq hfields (by simp) r.leftId.toNat_lt
  rw [← List.append_assoc] at hfields
  have hfifth : numberAt 10 2 r.encode = r.rightId.toNat :=
    numberAt_of_eq hfields (by simp) r.rightId.toNat_lt
  rw [Record.decode, hfirst, hsecond, hthird, hfourth, hfifth, UInt16.ofNat_toNat,
    UInt16.ofNat_toNat, UInt16.ofNat_toNat]
  rfl

/-- Pieces of one size, written in a row, are cut apart again. -/
theorem pieces_flatMap {α : Type} {size : ℕ} {f : α → List UInt8}
    (hsize : ∀ a, (f a).length = size) (xs : List α) :
    pieces size xs.length (xs.flatMap f) = xs.map f := by
  induction xs with
  | nil => rfl
  | cons a xs ih =>
    rw [List.flatMap_cons, List.length_cons, pieces, List.take_left' (hsize a),
      List.drop_left' (hsize a), ih, List.map_cons]

theorem length_flatMap_of_size {α : Type} {size : ℕ} {f : α → List UInt8}
    (hsize : ∀ a, (f a).length = size) (xs : List α) :
    (xs.flatMap f).length = xs.length * size := by
  induction xs with
  | nil => simp
  | cons a xs ih =>
    rw [List.flatMap_cons, List.length_append, hsize, ih, List.length_cons, Nat.succ_mul,
      Nat.add_comm]

/-! ### Slots in a row -/

theorem length_slotsFrom (start : ℕ) (lists : List (List Word)) :
    (slotsFrom start lists).length = lists.length := by
  induction lists generalizing start with
  | nil => rfl
  | cons words rest ih => rw [slotsFrom, List.length_cons, List.length_cons, ih]

/-- A slot begins behind the lists before its own and is as long as its own list. -/
theorem getElem?_slotsFrom (start : ℕ) (lists : List (List Word)) (i : ℕ) :
    (slotsFrom start lists)[i]? =
      lists[i]?.map fun words ↦ ⟨start + (lists.take i).flatten.length, words.length⟩ := by
  induction lists generalizing start i with
  | nil => rfl
  | cons words rest ih =>
    cases i with
    | zero => rfl
    | succ i =>
      rw [slotsFrom, List.getElem?_cons_succ, ih, List.getElem?_cons_succ, List.take_succ_cons,
        List.flatten_cons, List.length_append, Nat.add_assoc]

theorem slot_le_of_mem {lists : List (List Word)} {slot : Slot}
    (hmem : slot ∈ slotsFrom 0 lists) : slot.start + slot.count ≤ lists.flatten.length := by
  obtain ⟨i, hi⟩ := List.getElem?_of_mem hmem
  rw [getElem?_slotsFrom, Option.map_eq_some_iff] at hi
  obtain ⟨words, hwords, rfl⟩ := hi
  conv_rhs => rw [Lists.eq_take_append_cons_drop hwords]
  rw [List.flatten_append, List.flatten_cons, List.length_append, List.length_append]
  simp only
  omega

/-- A slot cuts its own list out of all the lists in a row. -/
theorem take_drop_slotsFrom {lists : List (List Word)} {i : ℕ} {words : List Word}
    (hwords : lists[i]? = some words) :
    (lists.flatten.drop (lists.take i).flatten.length).take words.length = words := by
  have hflatten : lists.flatten =
      (lists.take i).flatten ++ (words ++ (lists.drop (i + 1)).flatten) := by
    conv_lhs => rw [Lists.eq_take_append_cons_drop hwords]
    rw [List.flatten_append, List.flatten_cons]
  rw [hflatten, List.drop_left, List.take_left]

/-- The slots of words that can be counted in 32 bits read back from what was written. -/
theorem map_decode_pieces_slots {lists : List (List Word)}
    (hcount : lists.flatten.length < UInt32.size) :
    (pieces slotSize lists.length ((slotsFrom 0 lists).flatMap Slot.encode)).map Slot.decode =
      slotsFrom 0 lists := by
  rw [← length_slotsFrom 0 lists, pieces_flatMap Slot.length_encode, List.map_map]
  refine (List.map_congr_left fun slot hslot ↦ ?_).trans (List.map_id _)
  have hle := slot_le_of_mem hslot
  exact Slot.decode_encode (by omega) (by omega)

/-! ### The pool -/

/-- A surface stands in the bytes from a place on that a record can tell. -/
structure StandsAt (bytes : List UInt8) (place : ℕ) (surface : String) : Prop where
  place_lt : place < UInt32.size
  le_length : place + (Utf8.encode surface).length ≤ bytes.length
  slice_eq : (bytes.drop place).take (Utf8.encode surface).length = Utf8.encode surface

/-- A surface stays where it is when bytes are added at the end. -/
theorem StandsAt.mono {bytes longer : List UInt8} {place : ℕ} {surface : String}
    (hstands : StandsAt bytes place surface) (hgrown : bytes <+: longer) :
    StandsAt longer place surface := by
  obtain ⟨more, rfl⟩ := hgrown
  have hle := hstands.le_length
  refine ⟨hstands.place_lt, ?_, ?_⟩
  · rw [List.length_append]
    omega
  · rw [Lists.take_drop_append hle]
    exact hstands.slice_eq

/-- A pool that knows its size, and at each place on record the surface recorded. -/
structure Pool.Holds (pool : Pool) : Prop where
  size_eq : pool.size = pool.toBytes.length
  stands : ∀ surface place, pool.places[surface]? = some place →
    StandsAt pool.toBytes place surface

theorem Pool.holds_empty : Pool.empty.Holds where
  size_eq := rfl
  stands surface place hplace := by simp [Pool.empty] at hplace

/-- A surface that is placed stands at its place, and what stood in the pool stands there still. -/
theorem Pool.Holds.place {pool pool' : Pool} (hholds : pool.Holds) {surface : String} {offset : ℕ}
    (hplace : pool.place surface = .ok (offset, pool')) :
    pool'.Holds ∧ pool.toBytes <+: pool'.toBytes ∧ StandsAt pool'.toBytes offset surface := by
  rw [Pool.place] at hplace
  split at hplace
  · next place hfound =>
    obtain ⟨rfl, rfl⟩ := Prod.mk.inj (Except.ok.inj hplace)
    exact ⟨hholds, List.prefix_rfl, hholds.stands surface _ hfound⟩
  · by_cases hlarge : UInt32.size ≤ pool.size
    · rw [if_pos hlarge] at hplace
      exact absurd hplace (by simp)
    rw [if_neg hlarge] at hplace
    obtain ⟨rfl, rfl⟩ := Prod.mk.inj (Except.ok.inj hplace)
    set pool' : Pool :=
      { places := pool.places.insert surface pool.size
        surfaces := Utf8.encode surface :: pool.surfaces
        size := pool.size + (Utf8.encode surface).length }
    have hbytes : pool'.toBytes = pool.toBytes ++ Utf8.encode surface := by
      simp [pool', Pool.toBytes]
    have hstands : StandsAt pool'.toBytes pool.size surface := by
      rw [hbytes, hholds.size_eq]
      refine ⟨?_, by simp, ?_⟩
      · rw [← hholds.size_eq]
        omega
      · rw [List.drop_left, List.take_length]
    have hgrown : pool.toBytes <+: pool'.toBytes := hbytes ▸ List.prefix_append _ _
    refine ⟨⟨?_, fun other place hother ↦ ?_⟩, hgrown, hstands⟩
    · rw [hbytes, List.length_append, ← hholds.size_eq]
    · rw [Std.HashMap.getElem?_insert] at hother
      split at hother
      · next hsame =>
        obtain rfl := beq_iff_eq.mp hsame
        obtain rfl := Option.some.inj hother
        exact hstands
      · exact (hholds.stands other place hother).mono hgrown

/-- The record holds the numbers of a word and refers to its surface in the pool. -/
structure Record.Describes (pool : List UInt8) (r : Record) (word : Word) : Prop where
  stands : StandsAt pool r.offset word.surface
  size_eq : r.size = (Utf8.encode word.surface).length
  size_lt : r.size < UInt16.size
  cost_eq : r.cost = word.cost
  leftId_eq : r.leftId = word.leftId
  rightId_eq : r.rightId = word.rightId

/-- Placing words keeps the pool right and writes a record for each word, in order. -/
theorem placeWords_spec {pool pool' : Pool} {words : List Word} {records : List Record}
    (hholds : pool.Holds) (hplace : placeWords pool words = .ok (records, pool')) :
    pool'.Holds ∧ pool.toBytes <+: pool'.toBytes ∧
      List.Forall₂ (Record.Describes pool'.toBytes) records words := by
  induction words generalizing pool records with
  | nil =>
    rw [placeWords] at hplace
    obtain ⟨rfl, rfl⟩ := Prod.mk.inj (Except.ok.inj hplace)
    exact ⟨hholds, List.prefix_rfl, .nil⟩
  | cons word rest ih =>
    simp only [placeWords, ite_throw_eq_ok_iff, bind_eq_ok_iff, pure_eq_ok_iff] at hplace
    obtain ⟨hshort, ⟨offset, between⟩, hfirst, ⟨later, last⟩, hrest, hrecords⟩ := hplace
    obtain ⟨rfl, rfl⟩ := Prod.mk.inj hrecords
    obtain ⟨hbetween, hgrown, hstands⟩ := hholds.place hfirst
    obtain ⟨hlast, hgrown', hlater⟩ := ih hbetween hrest
    refine ⟨hlast, hgrown.trans hgrown', .cons ?_ hlater⟩
    have hfits : Utf8.byteLength word.surface < UInt16.size := by
      rw [maxSurfaceSize] at hshort
      show _ < 65536
      omega
    exact ⟨hstands.mono hgrown', (Utf8.length_encode _).symm, hfits, rfl, rfl, rfl⟩

/-- A record gives its word again. -/
theorem Record.Describes.word_eq {pool : List UInt8} {r : Record} {word : Word}
    (hdescribes : r.Describes pool word) : r.word pool.toArray = .ok word := by
  have hle := hdescribes.stands.le_length
  rw [← hdescribes.size_eq] at hle
  have hslice := hdescribes.stands.slice_eq
  rw [← hdescribes.size_eq] at hslice
  have hextract : (pool.toArray.extract r.offset (r.offset + r.size)).toList =
      Utf8.encode word.surface := by
    rw [← hslice]
    simp [List.extract_eq_take_drop]
  rw [Record.word, if_neg (by simpa using hle), hextract, Utf8.decode?_encode, hdescribes.cost_eq,
    hdescribes.leftId_eq, hdescribes.rightId_eq]

/-- Records that describe words, written in a row, give the words again. -/
theorem mapM_word_pieces_records {pool : List UInt8} {records : List Record} {words : List Word}
    (hdescribes : List.Forall₂ (Record.Describes pool) records words) :
    (pieces recordSize records.length (records.flatMap Record.encode)).mapM
      (fun r ↦ (Record.decode r).word pool.toArray) = .ok words := by
  rw [pieces_flatMap Record.length_encode]
  refine mapM_eq_ok_iff.mpr (List.forall₂_map_left_iff.mpr (hdescribes.imp ?_))
  intro r word hr
  rw [Record.decode_encode hr.stands.place_lt hr.size_lt]
  exact hr.word_eq

end KanaKanji.Lexicon
