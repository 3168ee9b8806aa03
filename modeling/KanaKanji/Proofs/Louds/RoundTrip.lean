import Mathlib
import KanaKanji.Proofs.Bits.Packing
import KanaKanji.Proofs.Louds.Navigation
import KanaKanji.Proofs.Outcomes

/-!
# Storing a trie and opening it again

A list of keys can be stored just if its distinct prefixes can be counted in 32 bits
(`build_eq_ok_iff`): the labels are the longest of the areas, one byte for each node. What was
stored opens again, as a trie that stores the keys (`exists_stores_of_build`).

`build_roundTrip` puts this together with the walks over such a trie: a string leads somewhere just
if it is a prefix of a key, it matches just if it is a key, and the node that it leads to spells it
again.
-/

set_option autoImplicit false

namespace KanaKanji.Louds

open Outcomes

/-! ### The header -/

theorem headerField_eq_ok_iff {value : ℕ} {bytes : List UInt8} :
    headerField value = .ok bytes ↔
      value < UInt32.size ∧ bytes = LittleEndian.encode 4 value := by
  rw [headerField, mapError_eq_ok_iff, word32]
  by_cases hfits : value < UInt32.size
  · rw [if_pos hfits, Except.ok.injEq, and_iff_right hfits, eq_comm]
  · simp [hfits]

/-- A number of the header reads back, and leaves what follows. -/
theorem takeField_encode_append {value : ℕ} (hfits : value < UInt32.size) (rest : List UInt8) :
    takeField (LittleEndian.encode 4 value ++ rest) = .ok (value, rest) := by
  rw [takeField, LittleEndian.take?_encode_append hfits]

/-- An image is written just if the sizes of its areas fit in the header. -/
theorem toBytes_eq_ok_iff {image : Image} {bytes : List UInt8} :
    image.toBytes = .ok bytes ↔
      (image.degrees.length < UInt32.size ∧ image.terminals.length < UInt32.size ∧
        image.labels.length < UInt32.size) ∧
      bytes = LittleEndian.encode 4 image.degrees.length ++
        (LittleEndian.encode 4 image.terminals.length ++
          (LittleEndian.encode 4 labelBits ++ (LittleEndian.encode 4 image.labels.length ++
            (image.degrees ++ (image.terminals ++ image.labels))))) := by
  simp only [Image.toBytes, bind_eq_ok_iff, headerField_eq_ok_iff, pure_eq_ok_iff]
  constructor
  · rintro ⟨_, ⟨hdegrees, rfl⟩, _, ⟨hterminals, rfl⟩, _, ⟨-, rfl⟩, _, ⟨hlabels, rfl⟩, rfl⟩
    exact ⟨⟨hdegrees, hterminals, hlabels⟩, by simp only [List.append_assoc]⟩
  · rintro ⟨⟨hdegrees, hterminals, hlabels⟩, rfl⟩
    refine ⟨_, ⟨hdegrees, rfl⟩, _, ⟨hterminals, rfl⟩, _, ⟨by decide, rfl⟩, _, ⟨hlabels, rfl⟩, ?_⟩
    simp only [List.append_assoc]

/-- An image with a label reads back from what was written. -/
theorem ofBytes_eq_ok_of_toBytes {image : Image} {bytes : List UInt8}
    (hbytes : image.toBytes = .ok bytes) (hlabels : image.labels ≠ []) :
    Image.ofBytes bytes = .ok image := by
  obtain ⟨⟨hd, ht, hl⟩, rfl⟩ := toBytes_eq_ok_iff.mp hbytes
  have hcount : image.labels.length ≠ 0 := by simpa using hlabels
  simp only [Image.ofBytes, takeField_encode_append hd, takeField_encode_append ht,
    takeField_encode_append hl, takeField_encode_append (show labelBits < UInt32.size by decide),
    bind, Except.bind]
  rw [if_neg (by simp), if_neg hcount, if_neg (by simp; omega)]
  simp [pure, Except.pure, ← List.drop_drop]

/-! ### The areas of a built image -/

variable (keys : List Key)

/-- The nodes have two bits each, and the root's own edge has one. -/
theorem length_degreeBits_nodes :
    (degreeBits (nodes keys)).length = 2 * (nodePaths keys).length + 1 := by
  have hzeros := count_false_degreeBits (nodes keys)
  have hones := count_true_degreeBits _ (pairwise_sortedKeys keys) (nodePaths keys)
  have hchildren := congrArg List.length (nodePaths_eq_cons keys)
  rw [← nodes_eq_map_below] at hones
  rw [List.length_cons] at hchildren
  rw [nodes_eq_map_below, List.length_map, ← nodes_eq_map_below] at hzeros
  rw [← List.count_false_add_count_true, hzeros, hones, ← hchildren]
  omega

/-- There is a label for each node. -/
theorem length_labels_imageOf : (imageOf keys).labels.length = (nodePaths keys).length := by
  conv_rhs => rw [nodePaths_eq_cons]
  rw [imageOf, nodes_eq_map_below, List.length_cons, List.length_cons, List.flatMap_map,
    List.length_flatMap, List.length_flatMap]
  simp [childPaths]

/-- Keys can be stored just if their distinct prefixes can be counted in 32 bits. -/
theorem build_eq_ok_iff :
    (∃ bytes, build keys = .ok bytes) ↔ (prefixes keys).card < UInt32.size := by
  have hdegrees : (imageOf keys).degrees.length = (2 * (nodePaths keys).length + 32) / 32 * 4 := by
    rw [imageOf, length_packed, length_degreeBits_nodes]
  have hterminals : (imageOf keys).terminals.length = ((nodePaths keys).length + 31) / 32 * 4 := by
    rw [imageOf, length_packed, List.length_map, nodes_eq_map_below, List.length_map]
  have hsize : UInt32.size = 4294967296 := rfl
  rw [← length_nodePaths, build]
  constructor
  · rintro ⟨bytes, hbytes⟩
    have hlabels := (toBytes_eq_ok_iff.mp hbytes).1.2.2
    rwa [length_labels_imageOf] at hlabels
  · intro hcount
    refine ⟨_, toBytes_eq_ok_iff.mpr ⟨⟨?_, ?_, ?_⟩, rfl⟩⟩
    · omega
    · omega
    · rwa [length_labels_imageOf]

/-! ### Opening -/

/-- The image of keys opens as a trie that stores them. -/
theorem exists_stores_of_imageOf : ∃ t, Trie.ofImage (imageOf keys) = .ok t ∧ t.Stores keys := by
  obtain ⟨zeros, hdegrees⟩ := flatMap_byteBits_packed (degreeBits (nodes keys))
  obtain ⟨zeros', hterminals⟩ := flatMap_byteBits_packed ((nodes keys).map Node.isTerminal)
  have hones : (BitVector.ofBytes (imageOf keys).degrees).ones =
      (imageOf keys).labels.toArray.size := by
    have hcount := count_true_degreeBits _ (pairwise_sortedKeys keys) (nodePaths keys)
    rw [← nodes_eq_map_below] at hcount
    rw [BitVector.ones_eq_count, BitVector.toList_ofBytes, List.size_toArray,
      length_labels_imageOf, imageOf, hdegrees, List.count_append, hcount, List.count_replicate]
    conv_rhs => rw [nodePaths_eq_cons]
    simp
  have hsize : (imageOf keys).labels.toArray.size ≤
      (BitVector.ofBytes (imageOf keys).terminals).length := by
    rw [← BitVector.length_toList, BitVector.toList_ofBytes, List.size_toArray,
      length_labels_imageOf, imageOf, hterminals, List.length_append, List.length_map,
      nodes_eq_map_below, List.length_map]
    exact Nat.le_add_right _ _
  refine ⟨_, by rw [Trie.ofImage, dif_pos hones, dif_pos hsize], ?_⟩
  exact {
    degrees := ⟨zeros, by rw [BitVector.toList_ofBytes, imageOf, hdegrees]⟩
    terminals := ⟨zeros', by rw [BitVector.toList_ofBytes, imageOf, hterminals]⟩
    labels := rfl }

variable {keys}

/-- Opening bytes that hold an image is opening the image. -/
theorem ofBytes_eq_ofImage {bytes : List UInt8} {image : Image}
    (hbytes : Image.ofBytes bytes = .ok image) : Trie.ofBytes bytes = Trie.ofImage image := by
  rw [Trie.ofBytes, hbytes]
  rfl

theorem ofBytes_eq_ofImage_of_build {bytes : List UInt8} (hbytes : build keys = .ok bytes) :
    Trie.ofBytes bytes = Trie.ofImage (imageOf keys) :=
  ofBytes_eq_ofImage (ofBytes_eq_ok_of_toBytes hbytes (List.cons_ne_nil _ _))

/-- What was built from keys opens as a trie that stores them. -/
theorem exists_stores_of_build {bytes : List UInt8} (hbytes : build keys = .ok bytes) :
    ∃ t, Trie.ofBytes bytes = .ok t ∧ t.Stores keys := by
  rw [ofBytes_eq_ofImage_of_build hbytes]
  exact exists_stores_of_imageOf keys

/-! ### Round trip -/

variable (keys)

/-- Keys can be stored just if their distinct prefixes can be counted in 32 bits. Whatever is stored
opens again, and then a string leads to a node just if it is empty or a prefix of a key, it matches
a node just if it is a key, and the node reached spells the string. -/
theorem build_roundTrip :
    ((∃ bytes, build keys = .ok bytes) ↔ (prefixes keys).card < UInt32.size) ∧
      ∀ bytes, build keys = .ok bytes → ∃ t, Trie.ofBytes bytes = .ok t ∧
        ∀ path : Key,
          ((∃ node, t.traverse? path = some node) ↔ path = [] ∨ ∃ key ∈ keys, path <+: key) ∧
          ((∃ node, t.exactMatch? path = some node) ↔ path ∈ keys) ∧
          (∀ node, t.traverse? path = some node → t.reverseLookup? node = some path) ∧
          ∀ node, t.exactMatch? path = some node → t.reverseLookup? node = some path := by
  refine ⟨build_eq_ok_iff keys, fun bytes hbytes ↦ ?_⟩
  obtain ⟨t, hopen, ht⟩ := exists_stores_of_build hbytes
  refine ⟨t, hopen, fun path ↦ ⟨?_, ?_, ?_, ?_⟩⟩
  · simp only [Trie.traverse?_eq_some_iff ht]
    rw [← List.mem_iff_getElem?, mem_nodePaths, mem_prefixes]
  · simp only [Trie.exactMatch?_eq_some_iff ht, exists_and_right]
    rw [← List.mem_iff_getElem?, mem_nodePaths, mem_prefixes]
    exact and_iff_right_of_imp fun hkey ↦ Or.inr ⟨path, hkey, List.prefix_rfl⟩
  · intro node hnode
    exact Trie.reverseLookup?_eq_some ht ((Trie.traverse?_eq_some_iff ht).mp hnode)
  · intro node hnode
    exact Trie.reverseLookup?_eq_some ht ((Trie.exactMatch?_eq_some_iff ht).mp hnode).1

end KanaKanji.Louds
