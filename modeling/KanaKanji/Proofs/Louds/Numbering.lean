import Mathlib
import KanaKanji.Proofs.Louds.Enumeration
import KanaKanji.Proofs.Louds.RoundTrip

/-!
# Numbers of nodes and of keys

Strings come level by level: shorter ones first, those of one length in ascending order
(`ComesBefore`). The place of a string in a set is the number of strings of the set that come before
it (`place`). Where a list holds a set in this order, an element stands at the index that is its
place (`getElem?_eq_some_iff_place`).

A trie lists neither its nodes nor its keys, but its numbers are these places: a node has the place
of its path among the prefixes of the keys, a key id is the place of the key among the keys, and the
id spells that key (`numbers_of_build`).
-/

set_option autoImplicit false

namespace KanaKanji.Louds

/-! ### Places -/

/-- A string comes before another if it is shorter, or if it is as long and less. -/
def ComesBefore (string other : Key) : Prop :=
  string.length < other.length ∨ string.length = other.length ∧ string < other

instance : DecidableRel ComesBefore := fun string other ↦
  inferInstanceAs (Decidable (string.length < other.length ∨ _ ∧ string < other))

theorem comesBefore_iff_shortlex {string other : Key} :
    ComesBefore string other ↔ List.Shortlex (· < ·) string other :=
  List.shortlex_def.symm

/-- The number of strings in a set that come before a string. -/
def place (strings : Finset Key) (string : Key) : ℕ :=
  {other ∈ strings | ComesBefore other string}.card

section Listed

variable {strings : List Key} (hstrings : strings.Pairwise (List.Shortlex (· < ·)))

include hstrings

/-- In a list in order, those before an element come before it, and no others. -/
theorem filter_comesBefore_eq_take {string : Key} {i : ℕ} (hi : strings[i]? = some string) :
    strings.filter (ComesBefore · string) = strings.take i := by
  have hparted := Lists.eq_take_append_cons_drop hi
  have hpairs := hstrings
  rw [hparted, List.pairwise_append, List.pairwise_cons] at hpairs
  obtain ⟨-, ⟨hbehind, -⟩, hbefore⟩ := hpairs
  have hfront : (strings.take i).filter (ComesBefore · string) = strings.take i := by
    rw [List.filter_eq_self]
    intro other hother
    exact decide_eq_true (comesBefore_iff_shortlex.mpr (hbefore other hother _ List.mem_cons_self))
  have hback : (string :: strings.drop (i + 1)).filter (ComesBefore · string) = [] := by
    rw [List.filter_eq_nil_iff]
    intro other hother
    rw [decide_eq_true_eq, comesBefore_iff_shortlex]
    rcases List.mem_cons.mp hother with rfl | hother
    · exact irrefl _
    · exact asymm (hbehind other hother)
  conv_lhs => rw [hparted, List.filter_append, hfront, hback, List.append_nil]

/-- In a list in order, an element stands at its place among the elements. -/
theorem getElem?_eq_some_iff_place {string : Key} {i : ℕ} :
    strings[i]? = some string ↔ string ∈ strings ∧ place strings.toFinset string = i := by
  have hplace : ∀ j : ℕ, strings[j]? = some string → place strings.toFinset string = j := by
    intro j hj
    have hlt := (List.getElem?_eq_some_iff.mp hj).1
    have hbefore : {other ∈ strings.toFinset | ComesBefore other string} =
        (strings.take j).toFinset := by
      ext other
      rw [← filter_comesBefore_eq_take hstrings hj]
      simp
    rw [place, hbefore,
      List.toFinset_card_of_nodup (hstrings.nodup.sublist (List.take_sublist _ _)),
      List.length_take, min_eq_left hlt.le]
  constructor
  · exact fun hi ↦ ⟨List.mem_of_getElem? hi, hplace i hi⟩
  · rintro ⟨hmem, rfl⟩
    obtain ⟨j, hj⟩ := List.getElem?_of_mem hmem
    rw [hplace j hj, hj]

end Listed

/-! ### Numbers of a trie -/

variable {keys : List Key}

theorem toFinset_nodePaths (keys : List Key) : (nodePaths keys).toFinset = prefixes keys := by
  ext path
  rw [List.mem_toFinset, mem_nodePaths]

theorem toFinset_keysByLevel (keys : List Key) : (keysByLevel keys).toFinset = keys.toFinset := by
  ext key
  rw [List.mem_toFinset, List.mem_toFinset, mem_keysByLevel]

/-- A path stands at its place among the prefixes of the keys. -/
theorem getElem?_nodePaths_iff {path : Key} {node : ℕ} :
    (nodePaths keys)[node]? = some path ↔
      path ∈ prefixes keys ∧ place (prefixes keys) path = node := by
  rw [getElem?_eq_some_iff_place (pairwise_nodePaths keys), toFinset_nodePaths, mem_nodePaths]

/-- A key stands at its place among the keys. -/
theorem getElem?_keysByLevel_iff {key : Key} {id : ℕ} :
    (keysByLevel keys)[id]? = some key ↔ key ∈ keys ∧ place keys.toFinset key = id := by
  rw [getElem?_eq_some_iff_place (pairwise_keysByLevel keys), toFinset_keysByLevel,
    mem_keysByLevel]

namespace Trie

variable {t : Trie} (ht : t.Stores keys)

include ht

/-- A string leads to the node whose number is its place among the prefixes, if it is one. -/
theorem traverse?_eq_some_iff_place {path : Key} {node : ℕ} :
    t.traverse? path = some node ↔ path ∈ prefixes keys ∧ place (prefixes keys) path = node := by
  rw [traverse?_eq_some_iff ht, getElem?_nodePaths_iff]

theorem numKeys_eq_card : t.numKeys = keys.toFinset.card := by
  rw [numKeys_eq_length ht, ← toFinset_keysByLevel,
    List.toFinset_card_of_nodup (nodup_keysByLevel keys)]

/-- A string that matches has its place among the keys as its id. -/
theorem keyId?_of_exactMatch? {key : Key} {id : ℕ} :
    (t.exactMatch? key).bind t.keyId? = some id ↔
      key ∈ keys ∧ place keys.toFinset key = id := by
  rw [Option.bind_eq_some_iff, ← getElem?_keysByLevel_iff]
  constructor
  · rintro ⟨node, hnode, hid⟩
    exact (keyId?_eq_some_iff ht ((exactMatch?_eq_some_iff ht).mp hnode).1).mp hid
  · intro hid
    have hkey := mem_keysByLevel.mp (List.mem_of_getElem? hid)
    obtain ⟨node, _, hlocated⟩ := exists_locates hkey
    have hpath : (nodePaths keys)[node]? = some key := hlocated.node_eq
    exact ⟨node, (exactMatch?_eq_some_iff ht).mpr ⟨hpath, hkey⟩,
      (keyId?_eq_some_iff ht hpath).mpr hid⟩

/-- An id spells the key whose place among the keys it is. -/
theorem reverseLookupKeyId?_eq_some_iff {key : Key} {id : ℕ} :
    t.reverseLookupKeyId? id = some key ↔ key ∈ keys ∧ place keys.toFinset key = id := by
  rw [reverseLookupKeyId?_eq_getElem? ht, getElem?_keysByLevel_iff]

/-- The ids are the numbers below the number of keys. -/
theorem exists_key_iff_lt_numKeys {id : ℕ} :
    (∃ key ∈ keys, place keys.toFinset key = id) ↔ id < t.numKeys := by
  rw [numKeys_eq_length ht]
  constructor
  · rintro ⟨key, hkey⟩
    exact (List.getElem?_eq_some_iff.mp (getElem?_keysByLevel_iff.mpr hkey)).1
  · intro hid
    exact ⟨_, getElem?_keysByLevel_iff.mp (List.getElem?_eq_getElem hid)⟩

end Trie

/-- In a trie that was built, there is a node for each distinct prefix of the keys and an id for
each distinct key. The number of a node and the id of a key are the places of its path among the
prefixes and of the key among the keys, so there are no gaps. An id spells its key, and a greater
number spells nothing. -/
theorem numbers_of_build {bytes : List UInt8} (hbytes : build keys = .ok bytes) :
    ∃ t, Trie.ofBytes bytes = .ok t ∧
      t.numNodes = (prefixes keys).card ∧ t.numKeys = keys.toFinset.card ∧
        (∀ path ∈ prefixes keys, t.traverse? path = some (place (prefixes keys) path)) ∧
        (∀ key ∈ keys, (t.exactMatch? key).bind t.keyId? = some (place keys.toFinset key)) ∧
        (∀ id, (∃ key ∈ keys, (t.exactMatch? key).bind t.keyId? = some id) ↔ id < t.numKeys) ∧
        (∀ id key, t.reverseLookupKeyId? id = some key ↔
          key ∈ keys ∧ place keys.toFinset key = id) ∧
        ∀ id, t.reverseLookupKeyId? id = none ↔ t.numKeys ≤ id := by
  obtain ⟨t, hopen, ht⟩ := exists_stores_of_build hbytes
  have hids : ∀ key ∈ keys, (t.exactMatch? key).bind t.keyId? = some (place keys.toFinset key) :=
    fun key hkey ↦ (Trie.keyId?_of_exactMatch? ht).mpr ⟨hkey, rfl⟩
  refine ⟨t, hopen, ?_, Trie.numKeys_eq_card ht, fun path hpath ↦ ?_, hids, fun id ↦ ?_,
    fun id key ↦ Trie.reverseLookupKeyId?_eq_some_iff ht, fun id ↦ ?_⟩
  · rw [Trie.numNodes_eq_length ht, length_nodePaths]
  · exact (Trie.traverse?_eq_some_iff_place ht).mpr ⟨hpath, rfl⟩
  · rw [← Trie.exists_key_iff_lt_numKeys ht]
    refine exists_congr fun key ↦ and_congr_right fun hkey ↦ ?_
    rw [hids key hkey, Option.some.injEq]
  · rw [Trie.reverseLookupKeyId?_eq_getElem? ht, Trie.numKeys_eq_length ht,
      List.getElem?_eq_none_iff]

/-- The keys `b`, `ab`, the empty one and `b` again: the node of `ab` is the last of four, behind
those of the empty path, of `a` and of `b`; its id is the last of three. -/
theorem numbers_of_build_repeated :
    let keys : List Key := [[98], [97, 98], [], [98]]
    ∃ bytes, build keys = .ok bytes ∧ ∃ t, Trie.ofBytes bytes = .ok t ∧ t.numNodes = 4 ∧
      t.numKeys = 3 ∧ t.traverse? [97, 98] = some 3 ∧ t.reverseLookupKeyId? 2 = some [97, 98] ∧
      t.reverseLookupKeyId? 3 = none := by
  intro keys
  obtain ⟨bytes, hbytes⟩ := (build_eq_ok_iff keys).mpr (by decide)
  obtain ⟨t, hopen, hnodes, hkeys, hpaths, -, -, hspelled, hnone⟩ := numbers_of_build hbytes
  refine ⟨bytes, hbytes, t, hopen, hnodes, hkeys, ?_, ?_, ?_⟩
  · exact hpaths [97, 98] (by decide)
  · exact (hspelled 2 [97, 98]).mpr (by decide)
  · exact (hnone 3).mpr hkeys.le

end KanaKanji.Louds
