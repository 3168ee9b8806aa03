import Mathlib
import KanaKanji.Proofs.Louds.Branches

/-!
# Nodes in level order

The nodes of a trie are told apart by the strings that lead to them from the root. `nodePaths` lists
these strings in the order of the nodes: level by level, and within a level in ascending order. So
the node with number `i` is what is left of the keys below the `i`-th path
(`nodes_eq_map_below`).

The paths are the distinct prefixes of the keys, the empty one among them (`mem_nodePaths`,
`length_nodePaths`); shorter ones come first, and those of one length ascend
(`pairwise_nodePaths`). The one equation that navigation needs is `nodePaths_eq_cons`: behind the
root stand the children of all nodes, in the order of their parents.
-/

set_option autoImplicit false

namespace KanaKanji.Louds

/-! ### Prefixes -/

/-- The distinct prefixes of the keys, with the empty one. -/
def prefixes (keys : List Key) : Finset Key := insert [] (keys.flatMap List.inits).toFinset

theorem mem_prefixes {keys : List Key} {path : Key} :
    path ∈ prefixes keys ↔ path = [] ∨ ∃ key ∈ keys, path <+: key := by
  simp [prefixes]

theorem take_mem_prefixes {keys : List Key} {path : Key} (hpath : path ∈ prefixes keys) (n : ℕ) :
    path.take n ∈ prefixes keys := by
  rw [mem_prefixes] at hpath ⊢
  rcases hpath with rfl | ⟨key, hkey, hshort⟩
  · exact Or.inl List.take_nil
  · exact Or.inr ⟨key, hkey, (List.take_prefix n path).trans hshort⟩

/-- Sorting the keys and leaving out repetitions keeps their prefixes. -/
theorem prefixes_sortedKeys (keys : List Key) : prefixes (sortedKeys keys) = prefixes keys := by
  ext path
  simp [mem_prefixes, mem_sortedKeys]

/-! ### Order of equally long strings -/

/-- Of two strings of one length the order shows in whatever they begin. -/
theorem append_lt_append {path other : Key} (hlength : path.length = other.length)
    (hlt : path < other) (tail rest : Key) : path ++ tail < other ++ rest := by
  induction path generalizing other with
  | nil =>
    obtain rfl : other = [] := List.eq_nil_of_length_eq_zero hlength.symm
    exact absurd hlt Std.lt_irrefl
  | cons b path ih =>
    cases other with
    | nil => simp at hlength
    | cons c other =>
      rw [List.cons_append, List.cons_append, List.cons_lt_cons_iff]
      rcases List.cons_lt_cons_iff.mp hlt with hbc | ⟨hbc, hlt⟩
      · exact Or.inl hbc
      · exact Or.inr ⟨hbc, ih (by simpa using hlength) hlt⟩

theorem append_singleton_lt {path : Key} {b c : UInt8} (hbc : b < c) :
    path ++ [b] < path ++ [c] := by
  induction path with
  | nil => simpa [List.cons_lt_cons_iff] using hbc
  | cons a path ih => exact List.cons_lt_cons_iff.mpr (Or.inr ⟨rfl, ih⟩)

/-! ### Paths to nodes -/

/-- The paths to the children of the node that a path leads to. -/
def childPaths (root : Node) (path : Key) : List Key :=
  (root.below path).childLabels.map fun label ↦ path ++ [label]

/-- The paths of one length. -/
def pathsOfLength (root : Node) : ℕ → List Key
  | 0 => [[]]
  | length + 1 => (pathsOfLength root length).flatMap (childPaths root)

section Root

variable {root : Node}

theorem mem_childPaths {path child : Key} :
    child ∈ childPaths root path ↔
      ∃ label, child = path ++ [label] ∧ ∃ key ∈ root, path ++ [label] <+: key := by
  simp only [childPaths, List.mem_map, Node.mem_childLabels, Node.mem_below]
  constructor
  · rintro ⟨label, ⟨tail, htail⟩, rfl⟩
    exact ⟨label, rfl, _, htail, tail, by simp⟩
  · rintro ⟨label, rfl, _, hkey, tail, rfl⟩
    exact ⟨label, ⟨tail, by simpa using hkey⟩, rfl⟩

/-- The paths of a length are the prefixes of that length. -/
theorem mem_pathsOfLength {length : ℕ} {path : Key} :
    path ∈ pathsOfLength root length ↔ path.length = length ∧ path ∈ prefixes root := by
  induction length generalizing path with
  | zero =>
    rw [pathsOfLength, List.mem_singleton, List.length_eq_zero_iff, mem_prefixes]
    exact ⟨fun hpath ↦ ⟨hpath, Or.inl hpath⟩, fun hpath ↦ hpath.1⟩
  | succ length ih =>
    simp only [pathsOfLength, List.mem_flatMap, ih, mem_childPaths, mem_prefixes]
    constructor
    · rintro ⟨path, ⟨hlength, -⟩, label, rfl, hkey⟩
      exact ⟨by simp [hlength], Or.inr hkey⟩
    · rintro ⟨hlength, hprefix⟩
      obtain ⟨path, label, rfl⟩ : ∃ front label, path = front ++ [label] := by
        rcases List.eq_nil_or_concat path with rfl | ⟨front, label, rfl⟩
        · simp at hlength
        · exact ⟨front, label, by simp⟩
      have hkey := hprefix.resolve_left (by simp)
      refine ⟨path, ⟨by simpa using hlength, Or.inr ?_⟩, label, rfl, hkey⟩
      obtain ⟨key, hmem, hfront⟩ := hkey
      exact ⟨key, hmem, (List.prefix_append path [label]).trans hfront⟩

variable (hroot : root.Pairwise (· < ·))

include hroot

/-- The paths of one length ascend. -/
theorem pairwise_pathsOfLength (length : ℕ) :
    (pathsOfLength root length).Pairwise (· < ·) := by
  induction length with
  | zero => simp [pathsOfLength]
  | succ length ih =>
    rw [pathsOfLength, List.pairwise_flatMap]
    constructor
    · intro path _
      rw [childPaths, List.pairwise_map]
      exact (Node.pairwise_childLabels (Node.pairwise_below hroot path)).imp append_singleton_lt
    · refine ih.imp_of_mem fun {path other} hpath hother hlt child hchild next hnext ↦ ?_
      obtain ⟨label, rfl, -⟩ := mem_childPaths.mp hchild
      obtain ⟨label', rfl, -⟩ := mem_childPaths.mp hnext
      refine append_lt_append ?_ hlt _ _
      rw [(mem_pathsOfLength.mp hpath).1, (mem_pathsOfLength.mp hother).1]

/-- The children of the nodes of a level are the nodes of the next one. -/
theorem flatMap_children_map_below (depth : ℕ) :
    ((pathsOfLength root depth).map root.below).flatMap Node.children =
      (pathsOfLength root (depth + 1)).map root.below := by
  rw [pathsOfLength, List.flatMap_map, List.map_flatMap]
  refine List.flatMap_congr fun path _ ↦ ?_
  rw [Node.children_eq_map_after (Node.pairwise_below hroot path), childPaths, List.map_map]
  exact List.map_congr_left fun label _ ↦ (Node.below_append_singleton root path label).symm

/-- The levels of the tree are the nodes at the ends of the paths of each length. -/
theorem levelOrder_eq_map_below (depth count : ℕ) :
    levelOrder count ((pathsOfLength root depth).map root.below) =
      ((List.range' depth count).flatMap (pathsOfLength root)).map root.below := by
  induction count generalizing depth with
  | zero => rfl
  | succ count ih =>
    rw [levelOrder, flatMap_children_map_below hroot, ih, List.range'_succ, List.flatMap_cons,
      List.map_append]

end Root

/-! ### All nodes -/

/-- The length of the longest key. -/
def maxLength (keys : List Key) : ℕ := (keys.map List.length).foldl max 0

theorem le_foldl_max (lengths : List ℕ) (start : ℕ) :
    start ≤ lengths.foldl max start ∧ ∀ n ∈ lengths, n ≤ lengths.foldl max start := by
  induction lengths generalizing start with
  | nil => simp
  | cons m rest ih =>
    obtain ⟨hstart, hrest⟩ := ih (max start m)
    refine ⟨le_trans (le_max_left _ _) hstart, fun n hn ↦ ?_⟩
    rcases List.mem_cons.mp hn with rfl | hn
    · exact le_trans (le_max_right _ _) hstart
    · exact hrest n hn

theorem length_le_maxLength {keys : List Key} {key : Key} (hkey : key ∈ keys) :
    key.length ≤ maxLength keys :=
  (le_foldl_max _ _).2 _ (List.mem_map_of_mem hkey)

/-- The paths to the nodes of the trie, in the order of the nodes. -/
def nodePaths (keys : List Key) : List Key :=
  (List.range (maxLength keys + 1)).flatMap (pathsOfLength (sortedKeys keys))

variable (keys : List Key)

/-- The node with a number is what is left of the keys below the path with that number. -/
theorem nodes_eq_map_below : nodes keys = (nodePaths keys).map (Node.below (sortedKeys keys)) := by
  have hlevels := levelOrder_eq_map_below (pairwise_sortedKeys keys) 0 (maxLength keys + 1)
  rw [← List.range_eq_range'] at hlevels
  exact hlevels

/-- The paths to nodes are the prefixes of the keys. -/
theorem mem_nodePaths {path : Key} : path ∈ nodePaths keys ↔ path ∈ prefixes keys := by
  simp only [nodePaths, List.mem_flatMap, List.mem_range, mem_pathsOfLength, prefixes_sortedKeys]
  constructor
  · rintro ⟨_, -, -, hpath⟩
    exact hpath
  · intro hpath
    refine ⟨path.length, ?_, rfl, hpath⟩
    rcases mem_prefixes.mp hpath with rfl | ⟨key, hkey, hprefix⟩
    · simp
    · have hlength := length_le_maxLength hkey
      have hshort := hprefix.length_le
      omega

/-- Shorter paths come first, and those of one length ascend. -/
theorem pairwise_nodePaths : (nodePaths keys).Pairwise (List.Shortlex (· < ·)) := by
  rw [nodePaths, List.pairwise_flatMap]
  constructor
  · intro length _
    refine (pairwise_pathsOfLength (pairwise_sortedKeys keys) length).imp_of_mem
      fun hpath hother hlt ↦ List.Shortlex.of_lex ?_ hlt
    rw [(mem_pathsOfLength.mp hpath).1, (mem_pathsOfLength.mp hother).1]
  · refine List.pairwise_lt_range.imp fun hlt path hpath other hother ↦
      List.Shortlex.of_length_lt ?_
    rwa [(mem_pathsOfLength.mp hpath).1, (mem_pathsOfLength.mp hother).1]

theorem nodup_nodePaths : (nodePaths keys).Nodup :=
  (pairwise_nodePaths keys).nodup

/-- There are as many nodes as distinct prefixes. -/
theorem length_nodePaths : (nodePaths keys).length = (prefixes keys).card := by
  rw [← List.toFinset_card_of_nodup (nodup_nodePaths keys)]
  congr 1
  ext path
  rw [List.mem_toFinset, mem_nodePaths]

/-- No path has more bytes than the longest key. -/
theorem pathsOfLength_succ_maxLength :
    pathsOfLength (sortedKeys keys) (maxLength keys + 1) = [] := by
  refine List.eq_nil_iff_forall_not_mem.mpr fun path hpath ↦ ?_
  obtain ⟨hlength, hprefix⟩ := mem_pathsOfLength.mp hpath
  rcases mem_prefixes.mp hprefix with rfl | ⟨key, hkey, hshort⟩
  · simp at hlength
  · have hbound := length_le_maxLength (mem_sortedKeys.mp hkey)
    have hle := hshort.length_le
    omega

/-- Behind the root stand the children of all nodes, in the order of their parents. -/
theorem nodePaths_eq_cons :
    nodePaths keys = [] :: (nodePaths keys).flatMap (childPaths (sortedKeys keys)) := by
  have hmore : (List.range (maxLength keys + 2)).flatMap (pathsOfLength (sortedKeys keys)) =
      nodePaths keys := by
    rw [List.range_succ, List.flatMap_append, List.flatMap_singleton,
      pathsOfLength_succ_maxLength, List.append_nil, nodePaths]
  conv_lhs => rw [← hmore, List.range_succ_eq_map, List.flatMap_cons, List.flatMap_map]
  rw [nodePaths, List.flatMap_assoc]
  rfl

end KanaKanji.Louds
