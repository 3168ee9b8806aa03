import Mathlib
import KanaKanji.Louds.Search

/-!
# Walking along a query

A walk matches at each place of the query where a key ends, and nowhere else
(`toList_eq_filterMap`). Whether it matches at a place depends on the bytes before that place alone,
and on no property of the trie: the law holds of any trie, also of one that stores no keys.
-/

set_option autoImplicit false

namespace KanaKanji.Louds

variable {t : Trie}

namespace Trie

/-- A string in two parts leads along the first and then along the second. -/
theorem descend?_append (node : ℕ) (path tail : Key) :
    t.descend? node (path ++ tail) = (t.descend? node path).bind (t.descend? · tail) := by
  induction path generalizing node with
  | nil => rfl
  | cons b path ih => simp only [List.cons_append, descend?, ih, Option.bind_assoc]

/-- The match at the end of a string that leads from a node at a depth to a key. -/
def matchAlong (t : Trie) (node depth : ℕ) (path : Key) : Option PrefixMatch :=
  (t.descend? node path).bind fun child ↦
    (t.keyId? child).map (⟨child, ·, depth + path.length⟩)

theorem matchAlong_eq_some_iff {node depth : ℕ} {path : Key} {found : PrefixMatch} :
    t.matchAlong node depth path = some found ↔
      t.descend? node path = some found.node ∧ t.keyId? found.node = some found.keyId ∧
        found.length = depth + path.length := by
  rw [matchAlong, Option.bind_eq_some_iff]
  constructor
  · rintro ⟨child, hdescend, hfound⟩
    obtain ⟨id, hid, rfl⟩ := Option.map_eq_some_iff.mp hfound
    exact ⟨hdescend, hid, rfl⟩
  · rintro ⟨hdescend, hid, hlength⟩
    exact ⟨found.node, hdescend, by rw [hid, Option.map_some, ← hlength]⟩

end Trie

namespace PrefixWalk

/-! ### One byte at a time -/

theorem toList_of_next_eq_none {walk after : PrefixWalk} (hnext : walk.next t = (none, after)) :
    toList t walk = [] := by
  rw [toList]
  split
  · rfl
  · next found _ hsome =>
    rw [hnext] at hsome
    simp at hsome

theorem toList_of_next_eq_some {walk after : PrefixWalk} {found : PrefixMatch}
    (hnext : walk.next t = (some found, after)) : toList t walk = found :: toList t after := by
  rw [toList]
  split
  · next hnone =>
    rw [hnext] at hnone
    simp at hnone
  · next hsome =>
    rw [hnext] at hsome
    obtain ⟨rfl, rfl⟩ : _ ∧ _ := by simpa using hsome
    rfl

/-- Two walks with the same next match have the same matches. -/
theorem toList_congr {walk walk' : PrefixWalk} (hnext : walk.next t = walk'.next t) :
    toList t walk = toList t walk' := by
  rcases hnext' : walk'.next t with ⟨_ | found, after⟩
  · rw [toList_of_next_eq_none hnext', toList_of_next_eq_none (hnext.trans hnext')]
  · rw [toList_of_next_eq_some hnext', toList_of_next_eq_some (hnext.trans hnext')]

theorem toList_nil (node depth : ℕ) : toList t ⟨node, depth, []⟩ = [] :=
  toList_of_next_eq_none rfl

/-- Where the byte leads nowhere, the walk ends. -/
theorem toList_cons_of_eq_none {node depth : ℕ} {b : UInt8} (hchild : t.child? node b = none)
    (rest : Key) : toList t ⟨node, depth, b :: rest⟩ = [] := by
  have hnext : PrefixWalk.next t ⟨node, depth, b :: rest⟩ = (none, ⟨node, depth, []⟩) := by
    simp only [next, advance, hchild]
  exact toList_of_next_eq_none hnext

/-- Behind a child the walk goes on from there, after the key that ends there if one does. -/
theorem toList_cons_of_eq_some {node depth child : ℕ} {b : UInt8}
    (hchild : t.child? node b = some child) (rest : Key) :
    toList t ⟨node, depth, b :: rest⟩ =
      ((t.keyId? child).map (⟨child, ·, depth + 1⟩)).toList ++
        toList t ⟨child, depth + 1, rest⟩ := by
  rcases hid : t.keyId? child with _ | id
  · apply toList_congr
    simp only [next, advance, hchild, hid]
  · refine toList_of_next_eq_some ?_
    simp only [next, advance, hchild, hid]

/-! ### All matches -/

/-- A walk has a match for each front part of the query that leads to a key, the shorter ones
first. -/
theorem toList_eq_filterMap (node depth : ℕ) (query : Key) :
    toList t ⟨node, depth, query⟩ =
      (List.range query.length).filterMap fun n ↦
        t.matchAlong node depth (query.take (n + 1)) := by
  induction query generalizing node depth with
  | nil => exact toList_nil node depth
  | cons b rest ih =>
    have hstep : ∀ n, t.matchAlong node depth ((b :: rest).take (n + 1)) =
        (t.child? node b).bind fun child ↦ t.matchAlong child (depth + 1) (rest.take n) := by
      intro n
      rw [List.take_succ_cons, Trie.matchAlong, Trie.descend?, Option.bind_assoc]
      refine Option.bind_congr fun child _ ↦ ?_
      rw [Trie.matchAlong, List.length_cons, Nat.add_right_comm, Nat.add_assoc]
    simp only [hstep]
    rcases hchild : t.child? node b with _ | child
    · rw [toList_cons_of_eq_none hchild]
      exact (List.filterMap_eq_nil_iff.mpr fun _ _ ↦ rfl).symm
    · rw [toList_cons_of_eq_some hchild, ih, List.length_cons, List.range_succ_eq_map,
        List.filterMap_cons, List.filterMap_map]
      have hhere : t.matchAlong child (depth + 1) (rest.take 0) =
          (t.keyId? child).map (⟨child, ·, depth + 1⟩) := rfl
      simp only [Option.bind_some, hhere]
      rcases t.keyId? child with _ | id
      · rfl
      · rfl

end PrefixWalk

namespace Trie

/-- The keys that are prefixes of a query are found at the front parts that lead to a key. -/
theorem mem_commonPrefixSearch_iff {query : Key} {found : PrefixMatch} :
    found ∈ t.commonPrefixSearch query ↔
      0 < found.length ∧ found.length ≤ query.length ∧
        t.traverse? (query.take found.length) = some found.node ∧
        t.keyId? found.node = some found.keyId := by
  rw [commonPrefixSearch, PrefixWalk.start, PrefixWalk.toList_eq_filterMap, List.mem_filterMap]
  simp only [List.mem_range, matchAlong_eq_some_iff, Nat.zero_add]
  constructor
  · rintro ⟨n, hn, hdescend, hid, hlength⟩
    rw [List.length_take_of_le (by omega)] at hlength
    rw [hlength]
    exact ⟨by omega, by omega, hdescend, hid⟩
  · rintro ⟨hpos, hle, hdescend, hid⟩
    refine ⟨found.length - 1, by omega, ?_⟩
    rw [Nat.sub_add_cancel hpos, List.length_take_of_le hle]
    exact ⟨hdescend, hid, rfl⟩

end Trie

end KanaKanji.Louds
