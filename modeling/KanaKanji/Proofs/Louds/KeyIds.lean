import Mathlib
import KanaKanji.Proofs.Louds.Navigation

/-!
# Ids of keys

Key ids count the nodes at which keys end, so they number the keys level by level: shorter ones
first, those of one length in ascending order (`keysByLevel`). The id of a node is the place of its
path in that list (`keyId?_eq_some_iff`), and there are as many ids as keys (`numKeys_eq_length`).
The way back from an id leads to that node (`nodeOfKeyId?_eq_some_iff`), which spells the key
(`reverseLookupKeyId?_eq_getElem?`). Keys that are listed level by level already are numbered as
they stand (`keysByLevel_eq_self`).
-/

set_option autoImplicit false

namespace KanaKanji.Louds

/-! ### Keys level by level -/

/-- The distinct keys in the order of the nodes at which they end. -/
def keysByLevel (keys : List Key) : List Key := (nodePaths keys).filter (· ∈ keys)

variable {keys : List Key}

theorem mem_keysByLevel {key : Key} : key ∈ keysByLevel keys ↔ key ∈ keys := by
  rw [keysByLevel, List.mem_filter, decide_eq_true_eq, and_iff_right_iff_imp, mem_nodePaths,
    mem_prefixes]
  exact fun hkey ↦ Or.inr ⟨key, hkey, List.prefix_rfl⟩

theorem pairwise_keysByLevel (keys : List Key) :
    (keysByLevel keys).Pairwise (List.Shortlex (· < ·)) :=
  (pairwise_nodePaths keys).filter _

theorem nodup_keysByLevel (keys : List Key) : (keysByLevel keys).Nodup :=
  (pairwise_keysByLevel keys).nodup

/-- Keys that stand level by level are not moved. -/
theorem keysByLevel_eq_self (hkeys : keys.Pairwise (List.Shortlex (· < ·))) :
    keysByLevel keys = keys := by
  have hperm : (keysByLevel keys).Perm keys :=
    (List.perm_ext_iff_of_nodup (nodup_keysByLevel keys) hkeys.nodup).mpr fun _ ↦ mem_keysByLevel
  exact hperm.eq_of_pairwise' (pairwise_keysByLevel keys) hkeys

namespace Trie

/-- An id leads to the node that has it, whatever the bits of the trie say. -/
theorem nodeOfKeyId?_eq_some_iff {t : Trie} {id node : ℕ} :
    t.nodeOfKeyId? id = some node ↔ t.keyId? node = some id := by
  rw [nodeOfKeyId?, Option.filter_eq_some_iff, BitVector.select1_eq_some_iff, keyId?,
    Option.ite_none_right_eq_some, Option.some.injEq, isTerminal, Bool.and_eq_true,
    decide_eq_true_eq]
  tauto

/-- Only nodes of the trie have ids. -/
theorem lt_numNodes_of_keyId? {t : Trie} {id node : ℕ} (hid : t.keyId? node = some id) :
    node < t.numNodes := by
  rw [keyId?, Option.ite_none_right_eq_some, isTerminal, Bool.and_eq_true,
    decide_eq_true_eq] at hid
  exact hid.1.1

variable {t : Trie} (ht : t.Stores keys)

/-- The terminal bits of nodes count the keys that end at them. -/
theorem count_isTerminal (paths : List Key) :
    ((paths.map (Node.below (sortedKeys keys))).map Node.isTerminal).count true =
      paths.countP (· ∈ keys) := by
  rw [List.map_map, List.count_eq_countP, List.countP_map]
  refine List.countP_congr fun path _ ↦ ?_
  rw [Function.comp_apply, Function.comp_apply, beq_iff_eq, decide_eq_true_eq,
    Node.isTerminal_below_iff (pairwise_sortedKeys keys), mem_sortedKeys]

include ht

theorem numKeys_eq_length : t.numKeys = (keysByLevel keys).length := by
  obtain ⟨zeros, hterminals⟩ := ht.terminals
  rw [numKeys, BitVector.ones_eq_count, hterminals, List.count_append, nodes_eq_map_below,
    count_isTerminal, List.count_replicate, keysByLevel, List.countP_eq_length_filter]
  simp

theorem numKeys_le_numNodes : t.numKeys ≤ t.numNodes := by
  rw [numKeys_eq_length ht, numNodes_eq_length ht]
  exact List.length_filter_le _ _

/-- The ones before a node count the keys that end at smaller nodes. -/
theorem rank1_terminals {i : ℕ} (hi : i ≤ (nodePaths keys).length) :
    t.terminals.rank1 i = ((nodePaths keys).take i).countP (· ∈ keys) := by
  obtain ⟨zeros, hterminals⟩ := ht.terminals
  rw [BitVector.rank1_eq_count, hterminals, nodes_eq_map_below,
    List.take_append_of_le_length (by simpa using hi), ← List.map_take, ← List.map_take,
    count_isTerminal]

/-- The id of a node at which a key ends is the place of the key, level by level. -/
theorem keyId?_eq_some_iff {path : Key} {i id : ℕ} (hpath : (nodePaths keys)[i]? = some path) :
    t.keyId? i = some id ↔ (keysByLevel keys)[id]? = some path := by
  have hi := (List.getElem?_eq_some_iff.mp hpath).1
  rw [keyId?]
  by_cases hkey : path ∈ keys
  · have hplace := Lists.getElem?_filter_countP hpath (p := (· ∈ keys)) (by simpa using hkey)
    rw [if_pos ((isTerminal_iff_mem ht hpath).mpr hkey), Option.some.injEq,
      rank1_terminals ht hi.le]
    constructor
    · rintro rfl
      exact hplace
    · intro hid
      exact (List.getElem?_inj (List.getElem?_eq_some_iff.mp hplace).1
        (nodup_keysByLevel keys)).mp (hplace.trans hid.symm)
  · rw [if_neg (mt (isTerminal_iff_mem ht hpath).mp hkey)]
    constructor
    · intro hnone
      exact absurd hnone (by simp)
    · intro hid
      exact absurd (mem_keysByLevel.mp (List.mem_of_getElem? hid)) hkey

/-- An id spells the key that stands at its place, level by level, and nothing past the last. -/
theorem reverseLookupKeyId?_eq_getElem? (id : ℕ) :
    t.reverseLookupKeyId? id = (keysByLevel keys)[id]? := by
  apply Option.ext
  intro key
  rw [reverseLookupKeyId?, Option.bind_eq_some_iff]
  constructor
  · rintro ⟨node, hnode, hspelled⟩
    rw [nodeOfKeyId?_eq_some_iff] at hnode
    have hbound := lt_numNodes_of_keyId? hnode
    rw [numNodes_eq_length ht] at hbound
    have hpath := List.getElem?_eq_getElem hbound
    rw [reverseLookup?_eq_some ht hpath] at hspelled
    rw [(keyId?_eq_some_iff ht hpath).mp hnode]
    exact hspelled
  · intro hid
    have hpath : key ∈ nodePaths keys := List.mem_of_mem_filter (List.mem_of_getElem? hid)
    obtain ⟨node, hnode⟩ := List.getElem?_of_mem hpath
    exact ⟨node, nodeOfKeyId?_eq_some_iff.mpr ((keyId?_eq_some_iff ht hnode).mpr hid),
      reverseLookup?_eq_some ht hnode⟩

end Trie

end KanaKanji.Louds
