import Mathlib
import KanaKanji.Louds.Search
import KanaKanji.Proofs.Louds.KeyIds

/-!
# Enumerating keys

A predictive search visits a node before its children and the children in the order of their
labels. So it finds the keys in ascending order (`pairwise_predictiveSearch`), and it finds each key
that begins with the given bytes, with its node and its id (`mem_predictiveSearch_iff`): the search
goes as many levels down as the trie has nodes, and a path has more prefixes, itself included, than
bytes (`length_lt_of_mem`).
-/

set_option autoImplicit false

namespace KanaKanji.Louds

variable {keys : List Key}

/-- A key of the trie, with the number of its node and its id. -/
structure PredictiveMatch.Locates (keys : List Key) (found : PredictiveMatch) : Prop where
  node_eq : (nodePaths keys)[found.node]? = some found.key
  keyId_eq : (keysByLevel keys)[found.keyId]? = some found.key

theorem PredictiveMatch.Locates.mem_keys {found : PredictiveMatch}
    (hfound : found.Locates keys) : found.key ∈ keys :=
  mem_keysByLevel.mp (List.mem_of_getElem? hfound.keyId_eq)

/-- A key has a node and an id. -/
theorem exists_locates {key : Key} (hkey : key ∈ keys) :
    ∃ node id, PredictiveMatch.Locates keys ⟨key, node, id⟩ := by
  have hpath : key ∈ nodePaths keys :=
    (mem_nodePaths keys).mpr (mem_prefixes.mpr (Or.inr ⟨key, hkey, List.prefix_rfl⟩))
  obtain ⟨node, hnode⟩ := List.getElem?_of_mem hpath
  obtain ⟨id, hid⟩ := List.getElem?_of_mem (mem_keysByLevel.mpr hkey)
  exact ⟨node, id, hnode, hid⟩

/-- A path has fewer bytes than the trie has nodes. -/
theorem length_lt_of_mem {path : Key} (hpath : path ∈ nodePaths keys) :
    path.length < (nodePaths keys).length := by
  rw [length_nodePaths, Nat.lt_iff_add_one_le, ← Finset.card_range (path.length + 1)]
  refine Finset.card_le_card_of_injOn (path.take ·) (fun n _ ↦ ?_) fun m hm n hn hsame ↦ ?_
  · exact take_mem_prefixes ((mem_nodePaths keys).mp hpath) n
  · have hlength := congrArg List.length hsame
    simp only [Finset.coe_range, Set.mem_Iio] at hm hn
    simp only [List.length_take] at hlength
    omega

theorem lt_append_cons (path : Key) (b : UInt8) (tail : Key) : path < path ++ b :: tail := by
  induction path with
  | nil => exact List.nil_lt_cons b tail
  | cons a path ih => exact List.cons_lt_cons_iff.mpr (Or.inr ⟨rfl, ih⟩)

namespace Trie

variable {t : Trie} (ht : t.Stores keys)

include ht

theorem mem_matchAt_iff {path : Key} {i : ℕ} (hpath : (nodePaths keys)[i]? = some path)
    {found : PredictiveMatch} :
    found ∈ (t.matchAt i path).toList ↔ found.key = path ∧ found.Locates keys := by
  rw [Option.mem_toList, matchAt, Option.map_eq_some_iff]
  constructor
  · rintro ⟨id, hid, rfl⟩
    exact ⟨rfl, hpath, (keyId?_eq_some_iff ht hpath).mp hid⟩
  · rintro ⟨rfl, hnode, hid⟩
    obtain rfl := eq_of_getElem?_nodePaths hpath hnode
    exact ⟨found.keyId, (keyId?_eq_some_iff ht hpath).mpr hid, rfl⟩

/-- The search below a node finds the keys that go on from its path, as far as its levels reach. -/
theorem mem_keysBelow_iff {levels i : ℕ} {path : Key} (hpath : (nodePaths keys)[i]? = some path)
    {found : PredictiveMatch} :
    found ∈ t.keysBelow levels i path ↔
      path <+: found.key ∧ found.key.length < path.length + levels ∧ found.Locates keys := by
  induction levels generalizing i path with
  | zero =>
    rw [keysBelow]
    constructor
    · exact fun hmem ↦ absurd hmem List.not_mem_nil
    · rintro ⟨hquery, hlength, -⟩
      exact absurd hquery.length_le (by omega)
  | succ levels ih =>
    rw [keysBelow, List.mem_append, mem_matchAt_iff ht hpath, List.mem_flatMap]
    constructor
    · rintro (⟨rfl, hfound⟩ | ⟨child, hchild, hmem⟩)
      · exact ⟨List.prefix_rfl, by omega, hfound⟩
      · obtain ⟨hquery, hlength, hfound⟩ :=
          (ih (getElem?_of_mem_children ht hpath hchild)).mp hmem
        rw [List.length_append, List.length_singleton] at hlength
        exact ⟨(List.prefix_append _ _).trans hquery, by omega, hfound⟩
    · rintro ⟨⟨tail, htail⟩, hlength, hfound⟩
      cases tail with
      | nil => exact Or.inl ⟨by rw [← htail, List.append_nil], hfound⟩
      | cons label tail =>
        have hlonger : path ++ [label] ++ tail = found.key := by
          rw [← htail, List.append_assoc, List.singleton_append]
        obtain ⟨child, hchild⟩ : ∃ child : ℕ, (nodePaths keys)[child]? = some (path ++ [label]) :=
          exists_getElem?_of_append (by rw [hlonger]; exact hfound.node_eq)
        refine Or.inr ⟨child, (mem_children_iff ht hpath).mpr ⟨label, hchild⟩, ?_⟩
        rw [label_eq ht hchild]
        refine (ih hchild).mpr ⟨⟨tail, hlonger⟩, ?_, hfound⟩
        rw [List.length_append, List.length_singleton]
        omega

/-- What ascends below each child of a node ascends below one child after another, since the keys
differ at the labels that lead to the children. -/
theorem pairwise_flatMap_children {path : Key} {i : ℕ} (hpath : (nodePaths keys)[i]? = some path)
    {children : List ℕ} (hchildren : children.Sublist (t.children i))
    {row : ℕ → List PredictiveMatch}
    (hrow : ∀ c ∈ children, ∀ found ∈ row c, path ++ [t.label c] <+: found.key)
    (hsorted : ∀ c ∈ children, (row c).Pairwise fun found other ↦ found.key < other.key) :
    (children.flatMap row).Pairwise fun found other ↦ found.key < other.key := by
  refine List.pairwise_flatMap.mpr ⟨hsorted, ?_⟩
  have hlabels := (List.pairwise_map.mp (pairwise_label_children ht hpath)).sublist hchildren
  refine hlabels.imp_of_mem fun {c d} hc hd hlt ↦ ?_
  intro found hfound other hother
  obtain ⟨tail, htail⟩ := hrow c hc found hfound
  obtain ⟨tail', htail'⟩ := hrow d hd other hother
  rw [← htail, ← htail']
  exact append_lt_append (by simp) (append_singleton_lt hlt) tail tail'

omit ht in
theorem pairwise_matchAt (i : ℕ) (path : Key) :
    (t.matchAt i path).toList.Pairwise fun found other ↦ found.key < other.key := by
  cases t.matchAt i path with
  | none => exact List.Pairwise.nil
  | some found => exact List.pairwise_singleton _ found

theorem pairwise_keysBelow {levels i : ℕ} {path : Key}
    (hpath : (nodePaths keys)[i]? = some path) :
    (t.keysBelow levels i path).Pairwise fun found other ↦ found.key < other.key := by
  induction levels generalizing i path with
  | zero => exact List.Pairwise.nil
  | succ levels ih =>
    have hbelow : ∀ c ∈ t.children i, ∀ found ∈ t.keysBelow levels c (path ++ [t.label c]),
        path ++ [t.label c] <+: found.key := fun c hc found hfound ↦
      ((mem_keysBelow_iff ht (getElem?_of_mem_children ht hpath hc)).mp hfound).1
    rw [keysBelow, List.pairwise_append]
    refine ⟨pairwise_matchAt i path, ?_, ?_⟩
    · exact pairwise_flatMap_children ht hpath (List.Sublist.refl _) hbelow
        fun c hc ↦ ih (getElem?_of_mem_children ht hpath hc)
    · intro found hfound found' hfound'
      obtain ⟨rfl, -⟩ := (mem_matchAt_iff ht hpath).mp hfound
      obtain ⟨c, hc, hmem⟩ := List.mem_flatMap.mp hfound'
      obtain ⟨tail, htail⟩ := hbelow c hc found' hmem
      rw [← htail, List.append_assoc, List.singleton_append]
      exact lt_append_cons _ _ _

/-- A predictive search finds exactly the keys that begin with the given bytes. -/
theorem mem_predictiveSearch_iff {start : Key} {found : PredictiveMatch} :
    found ∈ t.predictiveSearch start ↔ start <+: found.key ∧ found.Locates keys := by
  rw [predictiveSearch]
  rcases hnode : t.traverse? start with _ | node
  · constructor
    · exact fun hmem ↦ absurd hmem List.not_mem_nil
    · rintro ⟨⟨tail, htail⟩, hfound⟩
      have hpath := hfound.node_eq
      rw [← htail] at hpath
      obtain ⟨i, hi⟩ := exists_getElem?_of_append hpath
      rw [(traverse?_eq_some_iff ht).mpr hi] at hnode
      exact absurd hnode (by simp)
  · have hpath := (traverse?_eq_some_iff ht).mp hnode
    show found ∈ t.keysBelow t.numNodes node start ↔ _
    rw [mem_keysBelow_iff ht hpath, numNodes_eq_length ht]
    constructor
    · rintro ⟨hquery, -, hfound⟩
      exact ⟨hquery, hfound⟩
    · rintro ⟨hquery, hfound⟩
      have hlength := length_lt_of_mem (List.mem_of_getElem? hfound.node_eq)
      exact ⟨hquery, by omega, hfound⟩

/-- A predictive search finds keys in ascending order. -/
theorem pairwise_predictiveSearch (start : Key) :
    (t.predictiveSearch start).Pairwise fun found other ↦ found.key < other.key := by
  rw [predictiveSearch]
  rcases hnode : t.traverse? start with _ | node
  · exact List.Pairwise.nil
  · exact pairwise_keysBelow ht ((traverse?_eq_some_iff ht).mp hnode)

end Trie

end KanaKanji.Louds
