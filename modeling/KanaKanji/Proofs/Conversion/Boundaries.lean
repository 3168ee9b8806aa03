import Mathlib
import KanaKanji.Proofs.Conversion.Accepted

/-!
# Moved boundaries

The key of a row of segments is that of its parts (`keyOf_append`). Where boundaries move, the
characters stay where they are: the segments from one whose end is moved on have the same joined key
as before (`keyOf_moved`), and so has a row that is cut anew (`keyOf_recut`).

The segments of such a row are new ones, free or with a set boundary, and some that were there. No
new one has an empty key, so that what holds of new segments with a key and of the segments that
were there holds of all of them (`forall_mem_moved`, `forall_mem_recut`).
-/

set_option autoImplicit false

namespace KanaKanji

/-! ### Keys of segments in a row -/

namespace Segments

theorem keyOf_nil : keyOf [] = "" :=
  rfl

theorem keyOf_append (front back : List Segment) :
    keyOf (front ++ back) = keyOf front ++ keyOf back := by
  apply String.toList_inj.mp
  rw [String.toList_append]
  simp only [keyOf, Text.toList_joined, List.map_append, List.flatMap_append]

theorem keyOf_cons (first : Segment) (rest : List Segment) :
    keyOf (first :: rest) = first.key ++ keyOf rest := by
  apply String.toList_inj.mp
  rw [String.toList_append]
  simp only [keyOf, Text.toList_joined, List.map_cons, List.flatMap_cons]

theorem keyOf_map {f : Segment → Segment} (hf : ∀ segment, (f segment).key = segment.key)
    (segments : List Segment) : keyOf (segments.map f) = keyOf segments := by
  have hkeys : Segment.key ∘ f = Segment.key := funext hf
  rw [keyOf, List.map_map, hkeys, keyOf]

end Segments

/-- The keys of segments for pieces of characters make up these characters. -/
theorem keyOf_pieces {f : String → Segment} (hf : ∀ piece, (f piece).key = piece)
    (pieces : List (List Char)) :
    Segments.keyOf (pieces.map fun piece ↦ f (String.ofList piece)) =
      String.ofList pieces.flatten := by
  induction pieces with
  | nil => rfl
  | cons piece pieces ih =>
    rw [List.map_cons, Segments.keyOf_cons, ih, hf, List.flatten_cons, String.ofList_append]

namespace Segments

/-! ### The characters stay -/

/-- What is taken and what is left make up the key of the segments. -/
theorem toList_absorb (count : ℕ) (segments : List Segment) :
    (absorb count segments).1 ++ (keyOf (absorb count segments).2).toList =
      (keyOf segments).toList := by
  fun_induction absorb count segments with
  | case1 segments => rfl
  | case2 wanted => rfl
  | case3 wanted next rest key hshort taken behind habsorb ih =>
    rw [habsorb] at ih
    rw [keyOf_cons, String.toList_append, List.append_assoc, ih]
  | case4 wanted next rest key hlong =>
    rw [keyOf_cons, keyOf_cons, String.toList_append, String.toList_append, ← List.append_assoc,
      Segment.new, String.toList_ofList, List.take_append_drop]

theorem keyOf_grown (segment : Segment) (following : List Segment) (count : ℕ) :
    keyOf (grown segment following count) = segment.key ++ keyOf following := by
  apply String.toList_inj.mp
  rw [grown, keyOf_cons, Segment.new, String.toList_append, String.toList_append,
    String.toList_append, String.toList_ofList, List.append_assoc, toList_absorb]

theorem takeChars_append_dropChars (count : ℕ) (key : String) :
    Text.takeChars count key ++ Text.dropChars count key = key := by
  apply String.toList_inj.mp
  rw [String.toList_append, Text.toList_takeChars, Text.toList_dropChars, List.take_append_drop]

theorem keyOf_shrunk (segment : Segment) (following : List Segment) (count : ℕ) :
    keyOf (shrunk segment following count) = segment.key ++ keyOf following := by
  unfold shrunk
  rw [keyOf_cons]
  cases following with
  | nil =>
    rw [keyOf_cons, keyOf_nil, String.append_empty, String.append_empty]
    exact takeChars_append_dropChars count segment.key
  | cons next rest =>
    rw [keyOf_cons, keyOf_cons]
    simp only [Segment.new]
    rw [← String.append_assoc, ← String.append_assoc, takeChars_append_dropChars,
      String.append_assoc]

theorem keyOf_moved (segment : Segment) (following : List Segment) (offset : ℤ) :
    keyOf (moved segment following offset) = segment.key ++ keyOf following := by
  rw [moved]
  split
  · exact keyOf_grown segment following _
  · exact keyOf_shrunk segment following _

/-- The pieces make up the characters, whatever the sizes. -/
theorem flatten_cutBySizes (sizes : List ℕ) (cs : List Char) :
    (cutBySizes sizes cs).flatten = cs := by
  fun_induction cutBySizes sizes cs with
  | case1 cs hempty => rw [List.isEmpty_iff.mp hempty, List.flatten_nil]
  | case2 cs hempty => rw [List.flatten_singleton]
  | case3 cs size sizes hskip ih => exact ih
  | case4 cs size sizes hcut ih => rw [List.flatten_cons, ih, List.take_append_drop]

theorem keyOf_recut (row : List Segment) (sizes : List UInt8) :
    keyOf (recut row sizes) = keyOf row := by
  rw [recut, keyOf_pieces (f := (.new · .fixedBoundary)) fun _ ↦ rfl, flatten_cutBySizes,
    String.ofList_toList]

/-- Moving the end of one of the segments keeps their joined key. -/
theorem keyOf_take_moved {segments : List Segment} {i : ℕ} {segment : Segment}
    (hsegment : segments[i]? = some segment) (offset : ℤ) :
    keyOf (segments.take i ++ moved segment (segments.drop (i + 1)) offset) = keyOf segments := by
  rw [keyOf_append, keyOf_moved, ← keyOf_cons, ← keyOf_append,
    ← Lists.eq_take_append_cons_drop hsegment]

/-- Cutting a row of the segments anew keeps their joined key. -/
theorem keyOf_take_recut (segments : List Segment) (start count : ℕ) (sizes : List UInt8) :
    keyOf (segments.take start ++ (recut ((segments.drop start).take count) sizes ++
      segments.drop (start + count))) = keyOf segments := by
  rw [keyOf_append, keyOf_append, keyOf_recut, ← keyOf_append, ← keyOf_append, ← List.drop_drop,
    List.take_append_drop, List.take_append_drop]

/-! ### New segments -/

/-- A segment whose end is moved has its boundary set then. -/
theorem exists_moved_eq_cons (segment : Segment) (following : List Segment) (offset : ℤ) :
    ∃ key rest, moved segment following offset = .new key .fixedBoundary :: rest := by
  rw [moved]
  split
  · exact ⟨_, _, rfl⟩
  · exact ⟨_, _, rfl⟩

theorem type_of_mem_recut {row : List Segment} {sizes : List UInt8} {segment : Segment}
    (hmem : segment ∈ recut row sizes) : segment.type = .fixedBoundary := by
  obtain ⟨piece, -, rfl⟩ := List.mem_map.mp hmem
  rfl

/-- A row that has a key has one still when it is cut anew, so that it is not empty. -/
theorem recut_ne_nil {row : List Segment} (hkey : keyOf row ≠ "") (sizes : List UInt8) :
    recut row sizes ≠ [] := by
  intro hnil
  rw [← keyOf_recut row sizes, hnil] at hkey
  exact hkey keyOf_nil

theorem nil_notMem_cutBySizes (sizes : List ℕ) (cs : List Char) : [] ∉ cutBySizes sizes cs := by
  fun_induction cutBySizes sizes cs with
  | case1 cs hempty => exact List.not_mem_nil
  | case2 cs hempty =>
    intro hmem
    exact hempty (List.isEmpty_iff.mpr (List.mem_singleton.mp hmem).symm)
  | case3 cs size sizes hskip ih => exact ih
  | case4 cs size sizes hcut ih =>
    intro hmem
    rcases List.mem_cons.mp hmem with hnil | hmem
    · rcases List.take_eq_nil_iff.mp hnil.symm with hzero | hnil
      · exact hcut (.inl hzero)
      · exact hcut (.inr (List.isEmpty_iff.mpr hnil))
    · exact ih hmem

section NewSegments

variable {p : Segment → Prop}
  (hnew : ∀ key type, key ≠ "" → type = .free ∨ type = .fixedBoundary → p (.new key type))
  {segment : Segment} {following : List Segment}

include hnew

theorem forall_mem_absorb {segments : List Segment} (hsegments : ∀ t ∈ segments, p t)
    (count : ℕ) : ∀ t ∈ (absorb count segments).2, p t := by
  fun_induction absorb count segments with
  | case1 segments => exact hsegments
  | case2 wanted => exact hsegments
  | case3 wanted next rest key hshort taken behind habsorb ih =>
    rw [habsorb] at ih
    exact ih fun t hmem ↦ hsegments t (List.mem_cons_of_mem _ hmem)
  | case4 wanted next rest key hlong =>
    refine List.forall_mem_cons.mpr ⟨hnew _ _ (fun hempty ↦ ?_) (.inl rfl),
      fun t hmem ↦ hsegments t (List.mem_cons_of_mem _ hmem)⟩
    have hnil : key.drop (wanted + 1) = [] := by simpa using hempty
    exact hlong (List.drop_eq_nil_iff.mp hnil)

theorem forall_mem_grown (hkey : segment.key ≠ "") (hfollowing : ∀ t ∈ following, p t)
    (count : ℕ) : ∀ t ∈ grown segment following count, p t := by
  rw [grown]
  refine List.forall_mem_cons.mpr ⟨hnew _ _ (fun hempty ↦ hkey ?_) (.inr rfl),
    forall_mem_absorb hnew hfollowing count⟩
  exact (String.append_eq_empty_iff.mp hempty).1

theorem forall_mem_shrunk {count : ℕ} (hpos : 0 < count) (hlt : count < segment.keyLength)
    (hfollowing : ∀ t ∈ following, p t) : ∀ t ∈ shrunk segment following count, p t := by
  have hlength : segment.keyLength = segment.key.toList.length := String.length_toList.symm
  have hkept : Text.takeChars count segment.key ≠ "" := by
    intro hempty
    have hnil := congrArg (List.length ∘ String.toList) hempty
    simp only [Function.comp_apply, Text.toList_takeChars, List.length_take, String.toList_empty,
      List.length_nil] at hnil
    omega
  have hreleased : Text.dropChars count segment.key ≠ "" := by
    intro hempty
    have hnil := congrArg (List.length ∘ String.toList) hempty
    simp only [Function.comp_apply, Text.toList_dropChars, List.length_drop, String.toList_empty,
      List.length_nil] at hnil
    omega
  unfold shrunk
  refine List.forall_mem_cons.mpr ⟨hnew _ _ hkept (.inr rfl), ?_⟩
  cases following with
  | nil => exact List.forall_mem_singleton.mpr (hnew _ _ hreleased (.inl rfl))
  | cons next rest =>
    refine List.forall_mem_cons.mpr ⟨hnew _ _ (fun hempty ↦ hreleased ?_) (.inl rfl),
      fun t hmem ↦ hfollowing t (List.mem_cons_of_mem _ hmem)⟩
    exact (String.append_eq_empty_iff.mp hempty).1

/-- The bounds are those that a resize is checked for: the end is moved, and at least one character
is left to the segment. -/
theorem forall_mem_moved {offset : ℤ} (hkey : segment.key ≠ "") (hoffset : offset ≠ 0)
    (hkept : 0 < segment.keyLength + offset) (hfollowing : ∀ t ∈ following, p t) :
    ∀ t ∈ moved segment following offset, p t := by
  rw [moved]
  split
  · exact forall_mem_grown hnew hkey hfollowing _
  · exact forall_mem_shrunk hnew (by omega) (by omega) hfollowing

theorem forall_mem_recut (row : List Segment) (sizes : List UInt8) :
    ∀ t ∈ recut row sizes, p t := by
  refine List.forall_mem_map.mpr fun piece hpiece ↦ hnew _ _ (fun hempty ↦ ?_) (.inr rfl)
  have hnil : piece = [] := by simpa using hempty
  exact nil_notMem_cutBySizes _ _ (hnil ▸ hpiece)

end NewSegments

end Segments

end KanaKanji
