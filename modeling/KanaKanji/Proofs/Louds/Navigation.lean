import Mathlib
import KanaKanji.Louds.Trie
import KanaKanji.Proofs.Bits.RankSelect
import KanaKanji.Proofs.Louds.LevelOrder

/-!
# Walking a built trie

A trie stores a list of keys if its degree bits, its terminal bits and its labels are the ones of
the nodes in level order, with any number of zero bits behind them (`Trie.Stores`). Walking such a
trie by counting bits is walking the tree of paths:

* the children of the node at a path are the nodes at the paths one byte longer, and the label of
  each is that byte (`child?_eq_some_iff`, `label_eq`);
* the way up from a node leads to the path without its last byte (`parent?_eq_some`), and to a
  smaller number (`lt_of_getElem?_append_singleton`);
* a string leads to the node that has it as its path (`traverse?_eq_some_iff`), and a node spells
  its path (`reverseLookup?_eq_some`);
* a node is terminal just if its path is a key (`isTerminal_iff_mem`).

What ties the bits to the paths is that the degrees of the nodes before a node hold one zero for
each of them, and one for the root's own edge (`count_false_degreesBefore`), and as many ones as
there are nodes before its first child (`count_true_degreesBefore`).
-/

set_option autoImplicit false

namespace KanaKanji.Louds

/-- In an ascending list nothing that is looked for stands behind the first greater element. -/
theorem find?_takeWhile_le {cs : List ℕ} {label : ℕ → UInt8} (b : UInt8)
    (hascending : (cs.map label).Pairwise (· < ·)) :
    (cs.takeWhile (label · ≤ b)).find? (label · == b) = cs.find? (label · == b) := by
  induction cs with
  | nil => rfl
  | cons c rest ih =>
    obtain ⟨hgreater, hrest⟩ := List.pairwise_cons.mp hascending
    by_cases hle : label c ≤ b
    · rw [List.takeWhile_cons_of_pos (by simpa using hle), List.find?_cons, List.find?_cons,
        ih hrest]
    · rw [List.takeWhile_cons_of_neg (by simpa using hle), List.find?_nil]
      symm
      rw [List.find?_eq_none]
      intro d hd heq
      obtain rfl : label d = b := by simpa using heq
      rcases List.mem_cons.mp hd with rfl | hd
      · exact hle (Std.le_refl _)
      · exact hle (Std.le_of_lt (hgreater _ (List.mem_map_of_mem hd)))

/-! ### Degrees in front of a node -/

variable {keys : List Key}

/-- The degree bits of the nodes before the one with a number. -/
def degreesBefore (keys : List Key) (i : ℕ) : List Bool :=
  degreeBits (((nodePaths keys).take i).map (Node.below (sortedKeys keys)))

/-- The number of the first child of the node with a number: behind the root and the children of
the nodes before. -/
def firstChild (keys : List Key) (i : ℕ) : ℕ :=
  (((nodePaths keys).take i).flatMap (childPaths (sortedKeys keys))).length + 1

theorem degreeBits_append (front back : List Node) :
    degreeBits (front ++ back) = degreeBits front ++ back.flatMap Node.degreeBits := by
  rw [degreeBits, degreeBits, List.flatMap_append, List.append_assoc]

/-- A node has as many children as there are paths one byte longer. -/
theorem length_children_below (root : Node) (hroot : root.Pairwise (· < ·)) (path : Key) :
    (root.below path).children.length = (childPaths root path).length := by
  rw [Node.children_eq_map_after (Node.pairwise_below hroot path), childPaths, List.length_map,
    List.length_map]

/-- The degrees of nodes hold a zero for each node and one for the root's own edge. -/
theorem count_false_degreeBits (nodes : List Node) :
    (degreeBits nodes).count false = nodes.length + 1 := by
  rw [degreeBits, List.count_append]
  induction nodes with
  | nil => rfl
  | cons node rest ih =>
    rw [List.flatMap_cons, List.count_append, Node.degreeBits, List.count_append,
      List.count_replicate, List.length_cons]
    simp only [List.count_cons, List.count_nil] at ih ⊢
    simp at ih ⊢
    omega

/-- The degrees of nodes hold a one for each child and one for the root. -/
theorem count_true_degreeBits (root : Node) (hroot : root.Pairwise (· < ·)) (paths : List Key) :
    (degreeBits (paths.map root.below)).count true =
      (paths.flatMap (childPaths root)).length + 1 := by
  rw [degreeBits, List.count_append]
  induction paths with
  | nil => rfl
  | cons path rest ih =>
    rw [List.map_cons, List.flatMap_cons, List.count_append, Node.degreeBits, List.count_append,
      List.count_replicate, List.flatMap_cons, List.length_append,
      length_children_below root hroot path]
    simp at ih ⊢
    omega

theorem count_false_degreesBefore {i : ℕ} (hi : i ≤ (nodePaths keys).length) :
    (degreesBefore keys i).count false = i + 1 := by
  rw [degreesBefore, count_false_degreeBits, List.length_map, List.length_take, min_eq_left hi]

theorem count_true_degreesBefore (i : ℕ) :
    (degreesBefore keys i).count true = firstChild keys i :=
  count_true_degreeBits _ (pairwise_sortedKeys keys) _

/-- The degrees end with a zero. -/
theorem exists_degreeBits_eq (nodes : List Node) :
    ∃ front, degreeBits nodes = front ++ [false] := by
  rcases List.eq_nil_or_concat nodes with rfl | ⟨front, node, rfl⟩
  · exact ⟨[true], rfl⟩
  · refine ⟨degreeBits front ++ List.replicate node.children.length true, ?_⟩
    simp [degreeBits, Node.degreeBits]

/-- The children of the node with a number stand from `firstChild` on. -/
theorem getElem?_nodePaths_firstChild {path : Key} {i k : ℕ}
    (hpath : (nodePaths keys)[i]? = some path)
    (hk : k < (childPaths (sortedKeys keys) path).length) :
    (nodePaths keys)[firstChild keys i + k]? = (childPaths (sortedKeys keys) path)[k]? := by
  have hplace : firstChild keys i + k =
      (((nodePaths keys).take i).flatMap (childPaths (sortedKeys keys))).length + k + 1 := by
    rw [firstChild]
    omega
  have hchildren := Lists.getElem?_flatMap_take hpath hk
  rw [← List.getElem?_cons_succ (a := []), ← nodePaths_eq_cons] at hchildren
  rw [hplace, hchildren]

/-- The children of a node stand in the order of the labels that lead to them. -/
theorem getElem?_nodePaths_child {path : Key} {i k : ℕ} (hpath : (nodePaths keys)[i]? = some path)
    (hk : k < (Node.below (sortedKeys keys) path).childLabels.length) :
    (nodePaths keys)[firstChild keys i + k]? =
      some (path ++ [(Node.below (sortedKeys keys) path).childLabels[k]]) := by
  have hplace := getElem?_nodePaths_firstChild hpath (k := k) (by rwa [childPaths, List.length_map])
  rw [hplace, childPaths, List.getElem?_map, List.getElem?_eq_getElem hk, Option.map_some]

/-- A path stands at one number only. -/
theorem eq_of_getElem?_nodePaths {path : Key} {i j : ℕ} (hi : (nodePaths keys)[i]? = some path)
    (hj : (nodePaths keys)[j]? = some path) : i = j :=
  (List.getElem?_inj (List.getElem?_eq_some_iff.mp hi).1 (nodup_nodePaths keys)).mp
    (hi.trans hj.symm)

theorem getElem?_root (keys : List Key) : (nodePaths keys)[Trie.root]? = some [] := by
  rw [nodePaths_eq_cons]
  rfl

/-- Longer paths have greater numbers. -/
theorem lt_of_getElem?_append_singleton {path : Key} {label : UInt8} {i c : ℕ}
    (hi : (nodePaths keys)[i]? = some path) (hc : (nodePaths keys)[c]? = some (path ++ [label])) :
    i < c := by
  by_contra hle
  obtain ⟨hilt, rfl⟩ := List.getElem?_eq_some_iff.mp hi
  obtain ⟨hclt, hchild⟩ := List.getElem?_eq_some_iff.mp hc
  rcases Nat.lt_or_eq_of_le (Nat.le_of_not_lt hle) with hlt | rfl
  · have hshort := List.pairwise_iff_getElem.mp (pairwise_nodePaths keys) c i hclt hilt hlt
    rw [hchild, List.shortlex_def] at hshort
    simp only [List.length_append, List.length_singleton] at hshort
    omega
  · simp at hchild

/-- What is a path stays one without its last byte. -/
theorem exists_getElem?_of_append {path tail : Key} {c : ℕ}
    (hc : (nodePaths keys)[c]? = some (path ++ tail)) :
    ∃ i : ℕ, (nodePaths keys)[i]? = some path := by
  rw [← List.mem_iff_getElem?, mem_nodePaths, mem_prefixes]
  have hmem := (mem_nodePaths keys).mp (List.mem_of_getElem? hc)
  rcases mem_prefixes.mp hmem with hnil | ⟨key, hkey, hprefix⟩
  · exact Or.inl (List.append_eq_nil_iff.mp hnil).1
  · exact Or.inr ⟨key, hkey, (List.prefix_append path tail).trans hprefix⟩

namespace Trie

/-- The trie stores the keys: its bits and labels are those of the nodes in level order, with zeros
behind the bits. -/
structure Stores (t : Trie) (keys : List Key) : Prop where
  degrees : ∃ zeros, t.degrees.toList = degreeBits (nodes keys) ++ List.replicate zeros false
  terminals : ∃ zeros,
    t.terminals.toList = (nodes keys).map Node.isTerminal ++ List.replicate zeros false
  labels : t.labels.toList = 0 :: (nodes keys).flatMap Node.childLabels

variable {t : Trie} (ht : t.Stores keys)

include ht

/-! ### Numbers of nodes -/

theorem numNodes_eq_length : t.numNodes = (nodePaths keys).length := by
  conv_rhs => rw [nodePaths_eq_cons]
  rw [numNodes, ← Array.length_toList, ht.labels, List.length_cons, List.length_cons,
    nodes_eq_map_below, List.flatMap_map, List.length_flatMap, List.length_flatMap]
  simp [childPaths]

/-- The degree bits, parted at a node: those before it, its own, and more. -/
theorem toList_degrees_eq {path : Key} {i : ℕ} (hpath : (nodePaths keys)[i]? = some path) :
    ∃ more, t.degrees.toList = degreesBefore keys i ++
      (List.replicate (childPaths (sortedKeys keys) path).length true ++ false :: more) := by
  obtain ⟨zeros, hdegrees⟩ := ht.degrees
  refine ⟨(((nodePaths keys).drop (i + 1)).map (Node.below (sortedKeys keys))).flatMap
    Node.degreeBits ++ List.replicate zeros false, ?_⟩
  rw [hdegrees, nodes_eq_map_below, degreesBefore,
    ← length_children_below _ (pairwise_sortedKeys keys)]
  conv_lhs => rw [Lists.eq_take_append_cons_drop hpath, List.map_append, List.map_cons,
    degreeBits_append, List.flatMap_cons, Node.degreeBits]
  simp only [List.append_assoc, List.cons_append, List.nil_append]

/-! ### Down -/

/-- The bits of the children of a node begin behind the degrees of the nodes before. -/
theorem firstChildBit_eq_length {path : Key} {i : ℕ} (hpath : (nodePaths keys)[i]? = some path) :
    t.firstChildBit i = (degreesBefore keys i).length := by
  obtain ⟨more, hdegrees⟩ := toList_degrees_eq ht hpath
  obtain ⟨front, hfront⟩ :=
    exists_degreeBits_eq (((nodePaths keys).take i).map (Node.below (sortedKeys keys)))
  have hcount := count_false_degreesBefore (List.getElem?_eq_some_iff.mp hpath).1.le
  rw [degreesBefore, hfront, List.count_append, List.count_singleton_self] at hcount
  have hselect : t.degrees.select0 i = some front.length := by
    rw [BitVector.select0_eq_positionOf, positionOf_eq_some_iff, hdegrees, degreesBefore, hfront]
    constructor
    · simp
    · simpa using hcount
  rw [firstChildBit, hselect, degreesBefore, hfront, List.length_append, List.length_singleton]

/-- The children of a node have consecutive numbers, as many as there are paths one byte
longer. -/
theorem children_eq_range' {path : Key} {i : ℕ} (hpath : (nodePaths keys)[i]? = some path) :
    t.children i =
      List.range' (firstChild keys i) (childPaths (sortedKeys keys) path).length := by
  obtain ⟨more, hdegrees⟩ := toList_degrees_eq ht hpath
  rw [children, firstChildBit_eq_length ht hpath, BitVector.rank1_eq_count,
    BitVector.runOfOnes_eq_takeWhile, hdegrees, List.take_left, List.drop_left,
    count_true_degreesBefore, List.takeWhile_append_of_pos (by simp)]
  simp

/-- The label of a node is the last byte of its path. -/
theorem label_eq {path : Key} {label : UInt8} {c : ℕ}
    (hc : (nodePaths keys)[c]? = some (path ++ [label])) : t.label c = label := by
  have hlasts : t.labels.toList = (nodePaths keys).map (·.getLastD 0) := by
    rw [ht.labels, nodes_eq_map_below]
    conv_rhs => rw [nodePaths_eq_cons]
    rw [List.map_cons, List.map_flatMap, List.flatMap_map]
    congr 1
    refine List.flatMap_congr fun path _ ↦ ?_
    rw [childPaths, List.map_map]
    simp [Function.comp_def]
  rw [Trie.label, Array.getD_eq_getD_getElem?, ← Array.getElem?_toList, hlasts, List.getElem?_map,
    hc]
  simp

section Children

variable {path : Key} {i : ℕ} (hpath : (nodePaths keys)[i]? = some path)

include hpath

theorem map_label_children :
    (t.children i).map t.label = (Node.below (sortedKeys keys) path).childLabels := by
  rw [children_eq_range' ht hpath, childPaths, List.length_map]
  refine List.ext_getElem (by simp) fun k hk hk' ↦ ?_
  rw [List.getElem_map, List.getElem_range', Nat.one_mul]
  exact label_eq ht (getElem?_nodePaths_child hpath hk')

theorem pairwise_label_children : ((t.children i).map t.label).Pairwise (· < ·) := by
  rw [map_label_children ht hpath]
  exact Node.pairwise_childLabels (Node.pairwise_below (pairwise_sortedKeys keys) path)

theorem getElem?_of_mem_children {c : ℕ} (hc : c ∈ t.children i) :
    (nodePaths keys)[c]? = some (path ++ [t.label c]) := by
  rw [children_eq_range' ht hpath, childPaths, List.length_map, List.mem_range'_1] at hc
  obtain ⟨k, rfl⟩ : ∃ k, c = firstChild keys i + k := ⟨c - firstChild keys i, by omega⟩
  have hchild := getElem?_nodePaths_child hpath (show k < _ by omega)
  rwa [← label_eq ht hchild] at hchild

/-- The children of a node are the nodes whose paths are one byte longer. -/
theorem mem_children_iff {c : ℕ} :
    c ∈ t.children i ↔ ∃ label, (nodePaths keys)[c]? = some (path ++ [label]) := by
  constructor
  · intro hc
    exact ⟨t.label c, getElem?_of_mem_children ht hpath hc⟩
  · rintro ⟨label, hc⟩
    have hlabel : label ∈ (t.children i).map t.label := by
      rw [map_label_children ht hpath, Node.mem_childLabels]
      have hprefix := (mem_nodePaths keys).mp (List.mem_of_getElem? hc)
      obtain ⟨key, hkey, tail, rfl⟩ := (mem_prefixes.mp hprefix).resolve_left (by simp)
      exact ⟨tail, by simpa [Node.mem_below] using mem_sortedKeys.mpr hkey⟩
    obtain ⟨d, hd, rfl⟩ := List.mem_map.mp hlabel
    rwa [eq_of_getElem?_nodePaths hc (getElem?_of_mem_children ht hpath hd)]

/-- The child that a label leads to is the node whose path is longer by the label. -/
theorem child?_eq_some_iff {label : UInt8} {c : ℕ} :
    t.child? i label = some c ↔ (nodePaths keys)[c]? = some (path ++ [label]) := by
  have hfound : ∀ d, t.child? i label = some d →
      (nodePaths keys)[d]? = some (path ++ [label]) := by
    intro d hd
    rw [child?, find?_takeWhile_le label (pairwise_label_children ht hpath)] at hd
    obtain rfl : t.label d = label := by simpa using List.find?_some hd
    exact getElem?_of_mem_children ht hpath (List.mem_of_find?_eq_some hd)
  refine ⟨hfound c, fun hc ↦ ?_⟩
  -- The search finds some node, and that is the one with the path.
  obtain ⟨d, hd⟩ : ∃ d, t.child? i label = some d := by
    rw [child?, find?_takeWhile_le label (pairwise_label_children ht hpath),
      ← Option.isSome_iff_exists, List.find?_isSome]
    exact ⟨c, (mem_children_iff ht hpath).mpr ⟨label, hc⟩, by simp [label_eq ht hc]⟩
  rw [hd, eq_of_getElem?_nodePaths (hfound d hd) hc]

end Children

/-- From the node at one path a string leads to the node at the longer path. -/
theorem descend?_eq_some_iff {path tail : Key} {i c : ℕ}
    (hpath : (nodePaths keys)[i]? = some path) :
    t.descend? i tail = some c ↔ (nodePaths keys)[c]? = some (path ++ tail) := by
  induction tail generalizing path i with
  | nil =>
    rw [descend?, List.append_nil, Option.some.injEq]
    constructor
    · rintro rfl
      exact hpath
    · exact eq_of_getElem?_nodePaths hpath
  | cons label tail ih =>
    have happend : path ++ label :: tail = (path ++ [label]) ++ tail := by simp
    rw [descend?, Option.bind_eq_some_iff, happend]
    constructor
    · rintro ⟨child, hchild, hdescend⟩
      exact (ih ((child?_eq_some_iff ht hpath).mp hchild)).mp hdescend
    · intro hc
      obtain ⟨child, hchild⟩ := exists_getElem?_of_append hc
      exact ⟨child, (child?_eq_some_iff ht hpath).mpr hchild, (ih hchild).mpr hc⟩

/-- A string leads from the root to the node that has it as its path. -/
theorem traverse?_eq_some_iff {path : Key} {i : ℕ} :
    t.traverse? path = some i ↔ (nodePaths keys)[i]? = some path :=
  descend?_eq_some_iff ht (getElem?_root keys)

/-! ### Up -/

/-- The one of a child stands behind the degrees before the parent and the ones of the children
before the child. -/
theorem toList_degrees_eq_child {path : Key} {i k : ℕ} (hpath : (nodePaths keys)[i]? = some path)
    (hk : k < (childPaths (sortedKeys keys) path).length) :
    ∃ more, t.degrees.toList =
      (degreesBefore keys i ++ List.replicate k true) ++ true :: more := by
  obtain ⟨more, hdegrees⟩ := toList_degrees_eq ht hpath
  set count := (childPaths (sortedKeys keys) path).length
  have hones : List.replicate count true =
      List.replicate k true ++ true :: List.replicate (count - k - 1) true := by
    rw [← List.replicate_succ, ← List.replicate_add]
    congr 1
    omega
  refine ⟨List.replicate (count - k - 1) true ++ false :: more, ?_⟩
  rw [hdegrees, hones]
  simp

/-- Above a node stands the one at the path without the last byte. -/
theorem parent?_eq_some {path : Key} {label : UInt8} {i c : ℕ}
    (hpath : (nodePaths keys)[i]? = some path)
    (hc : (nodePaths keys)[c]? = some (path ++ [label])) : t.parent? c = some i := by
  have hbound : c < t.numNodes := by
    rw [numNodes_eq_length ht]
    exact (List.getElem?_eq_some_iff.mp hc).1
  have hroot : c ≠ root := by
    have hlt := lt_of_getElem?_append_singleton hpath hc
    rw [root]
    omega
  have hchild : c ∈ t.children i := (mem_children_iff ht hpath).mpr ⟨label, hc⟩
  rw [children_eq_range' ht hpath, List.mem_range'_1] at hchild
  obtain ⟨k, rfl⟩ : ∃ k, c = firstChild keys i + k := ⟨c - firstChild keys i, by omega⟩
  obtain ⟨more, hdegrees⟩ := toList_degrees_eq_child ht hpath (k := k) (by omega)
  have hlength : (degreesBefore keys i).length + k =
      (degreesBefore keys i ++ List.replicate k true).length := by
    simp
  have hselect : t.degrees.select1 (firstChild keys i + k) =
      some ((degreesBefore keys i).length + k) := by
    rw [BitVector.select1_eq_positionOf, positionOf_eq_some_iff, hdegrees, hlength, List.take_left]
    constructor
    · simp
    · rw [List.count_append, count_true_degreesBefore, List.count_replicate_self]
  have hrank : t.degrees.rank0 ((degreesBefore keys i).length + k) = i + 1 := by
    rw [BitVector.rank0_eq_count, hdegrees, hlength, List.take_left, List.count_append,
      count_false_degreesBefore (List.getElem?_eq_some_iff.mp hpath).1.le, List.count_replicate]
    simp
  rw [parent?, if_neg (by omega), hselect, Option.bind_some, hrank]
  simp

/-- Going up from a node spells its path in front of what is spelled already. -/
theorem spellUp_eq_some {path : Key} {i : ℕ} (hpath : (nodePaths keys)[i]? = some path)
    (spelled : Key) : t.spellUp i spelled = some (path ++ spelled) := by
  induction path using List.reverseRecOn generalizing i spelled with
  | nil =>
    rw [eq_of_getElem?_nodePaths hpath (getElem?_root keys), spellUp, if_pos rfl, List.nil_append]
  | append_singleton path label ih =>
    obtain ⟨parent, hparent⟩ := exists_getElem?_of_append hpath
    have hlt := lt_of_getElem?_append_singleton hparent hpath
    have hroot : i ≠ root := by
      rw [root]
      omega
    rw [spellUp, if_neg hroot, parent?_eq_some ht hparent hpath]
    simp only
    rw [dif_pos hlt, label_eq ht hpath, ih hparent, List.append_assoc, List.singleton_append]

/-- A node spells its path. -/
theorem reverseLookup?_eq_some {path : Key} {i : ℕ} (hpath : (nodePaths keys)[i]? = some path) :
    t.reverseLookup? i = some path := by
  have hbound : i < t.numNodes := by
    rw [numNodes_eq_length ht]
    exact (List.getElem?_eq_some_iff.mp hpath).1
  rw [reverseLookup?, if_pos hbound, spellUp_eq_some ht hpath, List.append_nil]

/-! ### Keys -/

/-- The terminal bit of a node says whether its path is a key. -/
theorem isTerminal_iff_mem {path : Key} {i : ℕ} (hpath : (nodePaths keys)[i]? = some path) :
    t.isTerminal i = true ↔ path ∈ keys := by
  obtain ⟨zeros, hterminals⟩ := ht.terminals
  have hi := (List.getElem?_eq_some_iff.mp hpath).1
  have hbit : t.terminals.get i = (Node.below (sortedKeys keys) path).isTerminal := by
    rw [BitVector.get_eq_getD, hterminals, nodes_eq_map_below,
      List.getD_append _ _ _ _ (by simpa using hi), List.getD_eq_getElem?_getD, List.getElem?_map,
      List.getElem?_map, hpath]
    rfl
  rw [isTerminal, hbit, numNodes_eq_length ht, Bool.and_eq_true, decide_eq_true_eq,
    Node.isTerminal_below_iff (pairwise_sortedKeys keys), mem_sortedKeys]
  exact and_iff_right hi

/-- A string matches exactly at the node that has it as its path, if it is a key. -/
theorem exactMatch?_eq_some_iff {key : Key} {i : ℕ} :
    t.exactMatch? key = some i ↔ (nodePaths keys)[i]? = some key ∧ key ∈ keys := by
  rw [exactMatch?, Option.filter_eq_some_iff, traverse?_eq_some_iff ht]
  exact and_congr_right fun hpath ↦ isTerminal_iff_mem ht hpath

end Trie

end KanaKanji.Louds
