import Mathlib
import KanaKanji.Proofs.Louds.RoundTrip

/-!
# The image as a canonical form

The stored form of a trie depends on nothing but the set of its keys: the nodes and what is left of
the keys below them come from the sorted keys and their prefixes, and neither order nor repetition
counts there (`build_congr`). On the other hand no two sets have one stored form, as the trie that
it opens as tells its keys (`Trie.Stores.mem_iff_mem`). So two lists of keys are stored in the same
way just if they hold the same keys (`stored_eq_iff_same_keys`).
-/

set_option autoImplicit false

namespace KanaKanji.Louds

variable {keys other : List Key}

/-! ### One set, one image -/

section SameKeys

variable (hsame : ∀ key, key ∈ keys ↔ key ∈ other)

include hsame

theorem sortedKeys_congr : sortedKeys keys = sortedKeys other :=
  (pairwise_sortedKeys keys).eq_of_mem_iff (pairwise_sortedKeys other) fun key ↦ by
    rw [mem_sortedKeys, mem_sortedKeys, hsame]

theorem prefixes_congr : prefixes keys = prefixes other := by
  ext path
  simp only [mem_prefixes, hsame]

theorem nodePaths_congr : nodePaths keys = nodePaths other :=
  (pairwise_nodePaths keys).eq_of_mem_iff (pairwise_nodePaths other) fun path ↦ by
    rw [mem_nodePaths, mem_nodePaths, prefixes_congr hsame]

/-- Lists with the same keys are built into the same, be it bytes or a refusal. -/
theorem build_congr : build keys = build other := by
  have hnodes : nodes keys = nodes other := by
    rw [nodes_eq_map_below, nodes_eq_map_below, nodePaths_congr hsame, sortedKeys_congr hsame]
  rw [build, build, imageOf, imageOf, hnodes]

end SameKeys

/-! ### One image, one set -/

/-- A trie tells the keys that it stores. -/
theorem Trie.Stores.mem_iff_mem {t : Trie} (hkeys : t.Stores keys) (hother : t.Stores other)
    (key : Key) : key ∈ keys ↔ key ∈ other := by
  have hmatch : ∀ {stored : List Key}, t.Stores stored →
      ((∃ node, t.exactMatch? key = some node) ↔ key ∈ stored) := by
    intro stored hstored
    simp only [exactMatch?_eq_some_iff hstored, exists_and_right, ← List.mem_iff_getElem?,
      mem_nodePaths, mem_prefixes]
    exact and_iff_right_of_imp fun hkey ↦ .inr ⟨key, hkey, List.prefix_rfl⟩
  rw [← hmatch hkeys, ← hmatch hother]

/-- Two lists of keys that can be stored are stored as the same bytes just if they hold the same
keys, in whatever order and how often. -/
theorem stored_eq_iff_same_keys {bytes otherBytes : List UInt8} (hbytes : build keys = .ok bytes)
    (hother : build other = .ok otherBytes) :
    bytes = otherBytes ↔ ∀ key, key ∈ keys ↔ key ∈ other := by
  constructor
  · rintro rfl
    obtain ⟨t, hopen, hkeys⟩ := exists_stores_of_build hbytes
    obtain ⟨t', hopen', hstores⟩ := exists_stores_of_build hother
    obtain rfl := Except.ok.inj (hopen.symm.trans hopen')
    exact hkeys.mem_iff_mem hstores
  · intro hsame
    exact Except.ok.inj (hbytes.symm.trans ((build_congr hsame).trans hother))

/-- Three keys in another order and one of them twice are stored as before; without the empty key
they are not. -/
theorem stored_eq_iff_same_keys_repeated :
    ∃ bytes again fewer, build [[98], [97, 98], [], [98]] = .ok bytes ∧
      build [[], [97, 98], [98]] = .ok again ∧ build [[97, 98], [98]] = .ok fewer ∧
      bytes = again ∧ bytes ≠ fewer := by
  obtain ⟨bytes, hbytes⟩ := (build_eq_ok_iff [[98], [97, 98], [], [98]]).mpr (by decide)
  obtain ⟨again, hagain⟩ := (build_eq_ok_iff [[], [97, 98], [98]]).mpr (by decide)
  obtain ⟨fewer, hfewer⟩ := (build_eq_ok_iff [[97, 98], [98]]).mpr (by decide)
  refine ⟨bytes, again, fewer, hbytes, hagain, hfewer, ?_, fun hsame ↦ ?_⟩
  · refine (stored_eq_iff_same_keys hbytes hagain).mpr fun key ↦ ?_
    simp only [List.mem_cons, List.not_mem_nil, or_false]
    tauto
  · have hempty := (stored_eq_iff_same_keys hbytes hfewer).mp hsame []
    exact absurd hempty (by decide)

end KanaKanji.Louds
