import Mathlib
import KanaKanji.Proofs.Louds.Bounds
import KanaKanji.Proofs.Louds.MatchCursor

/-!
# Links that undo each other

Down from a node there are its children, up from a child there is one node, and between nodes and
key ids there is a way in both directions. In a trie that was accepted these ways undo each other,
even if its bits have no shape of a tree: a node may then be its own child, or children may hang
below a node that does not exist, but they have it as their parent all the same.

The children of a node are asked for one at a time (`ChildCursor.next`). Only the first one has its
number counted; each further one has the next number, as the ones of the children stand in a row.
`ChildCursor.drains_children` shows that the numbers are those that counting gives. With it
`links_undo_each_other` is read off the facts about links of any trie, as long as the numbers fit in
32 bits.
-/

set_option autoImplicit false

namespace KanaKanji.Louds

/-! ### Children one after another -/

/-- A place in the degree bits, and the number of the child that has it, if that is known. -/
structure ChildCursor where
  bit : ℕ
  nextNumber : Option ℕ
  deriving DecidableEq, Repr

namespace ChildCursor

/-- The cursor before the first child of a node. -/
def start (t : Trie) (node : ℕ) : ChildCursor := ⟨t.firstChildBit node, none⟩

/-- The next child, and the cursor after it. -/
def next (t : Trie) (cursor : ChildCursor) : Except Fault (Option ℕ × ChildCursor) :=
  if t.degrees.get cursor.bit then
    let number := cursor.nextNumber.getD (t.degrees.rank1 cursor.bit)
    .ok (some (KanaKanji.Guarded.narrow number), ⟨cursor.bit + 1, some (number + 1)⟩)
  else .ok (none, cursor)

variable {t : Trie}

/-- From a place on, the numbers go up from the count of ones in front of it. -/
theorem drains_range' (bit : ℕ) {nextNumber : Option ℕ}
    (hnumber : nextNumber.getD (t.degrees.rank1 bit) = t.degrees.rank1 bit) :
    Drains (next t) ⟨bit, nextNumber⟩
      ((List.range' (t.degrees.rank1 bit) (t.degrees.runOfOnes bit)).map
        KanaKanji.Guarded.narrow) := by
  induction hrun : t.degrees.runOfOnes bit generalizing bit nextNumber with
  | zero =>
    have hzero : ¬ t.degrees.get bit = true := by
      intro hone
      rw [BitVector.runOfOnes, dif_pos hone] at hrun
      exact absurd hrun (Nat.succ_ne_zero _)
    have hend : next t ⟨bit, nextNumber⟩ = .ok (none, ⟨bit, nextNumber⟩) := if_neg hzero
    exact .nil hend hend
  | succ run ih =>
    have hone : t.degrees.get bit = true := by
      by_contra hzero
      rw [BitVector.runOfOnes, dif_neg hzero] at hrun
      exact absurd hrun.symm (Nat.succ_ne_zero _)
    rw [BitVector.runOfOnes, dif_pos hone, Nat.add_right_cancel_iff] at hrun
    have hfirst : next t ⟨bit, nextNumber⟩ =
        .ok (some (KanaKanji.Guarded.narrow (t.degrees.rank1 bit)),
          ⟨bit + 1, some (t.degrees.rank1 bit + 1)⟩) := by
      rw [next, if_pos hone]
      dsimp only
      rw [hnumber]
    have hnext : (some (t.degrees.rank1 bit + 1)).getD (t.degrees.rank1 (bit + 1)) =
        t.degrees.rank1 (bit + 1) := by
      rw [Option.getD_some, t.degrees.rank1_succ_of_one hone]
    have hbehind := ih (bit + 1) hnext hrun
    rw [t.degrees.rank1_succ_of_one hone] at hbehind
    rw [List.range'_succ, List.map_cons]
    exact .cons hfirst hbehind

/-- A cursor gives the children of its node, one a call. -/
theorem drains_children (t : Trie) (node : ℕ) :
    Drains (next t) (start t node) (Guarded.children t node) :=
  drains_range' (t.firstChildBit node) rfl

end ChildCursor

/-! ### There and back -/

namespace Trie

variable {t : Trie}

/-- Children have consecutive numbers. -/
theorem children_eq_range'_length (node : ℕ) :
    ∃ first, t.children node = List.range' first (t.children node).length := by
  refine ⟨t.degrees.rank1 (t.firstChildBit node), ?_⟩
  conv_rhs => rw [children, List.length_range']
  rfl

/-- No child of a node is there twice. -/
theorem count_children_eq_one {node child : ℕ} (hchild : child ∈ t.children node) :
    (t.children node).count child = 1 := by
  obtain ⟨first, hchildren⟩ := children_eq_range'_length (t := t) node
  refine List.count_eq_one_of_mem ?_ hchild
  rw [hchildren]
  exact List.nodup_range'

end Trie

namespace Guarded

/-- In a trie that was accepted, and whose bits can be numbered in 32 bits, a cursor gives the
children of a node one a call, and they have consecutive numbers. Every child but the root has the
node as its parent, a node that has a parent is once among the children of it, and an id belongs to
a node just if the node belongs to the id. -/
theorem links_undo_each_other {t : Trie} {bytes : List UInt8} (hopen : Trie.ofBytes bytes = .ok t)
    (hdegrees : t.degrees.length < UInt32.size) (hterminals : t.terminals.length < UInt32.size) :
    (Trie.root < t.numNodes ∧ parent? t Trie.root = none) ∧
      (∀ node, Drains (ChildCursor.next t) (.start t node) (children t node) ∧
        ∃ first, children t node = List.range' first (children t node).length) ∧
      (∀ node, ∀ child ∈ children t node, child ≠ Trie.root → parent? t child = some node) ∧
      (∀ child parent, parent? t child = some parent → (children t parent).count child = 1) ∧
      ∀ node id, keyId? t node = some id ↔ nodeOfKeyId? t id = some node := by
  have hnodes := numNodes_lt hdegrees
  refine ⟨⟨root_lt_numNodes hopen, ?_⟩, fun node ↦ ⟨ChildCursor.drains_children t node, ?_⟩,
    fun node child hchild hroot ↦ ?_, fun child parent hparent ↦ ?_, fun node id ↦ ?_⟩
  · rw [parent?, Trie.parent?, if_pos (.inl rfl)]
    rfl
  · rw [children_eq hnodes]
    exact Trie.children_eq_range'_length node
  · rw [children_eq hnodes] at hchild
    rw [parent?_eq hdegrees]
    exact Trie.parent?_eq_some_iff.mpr ⟨hroot, hchild⟩
  · rw [parent?_eq hdegrees] at hparent
    rw [children_eq hnodes]
    exact Trie.count_children_eq_one (Trie.parent?_eq_some_iff.mp hparent).2
  · rw [keyId?_eq (numKeys_lt hterminals), nodeOfKeyId?_eq hnodes, Trie.nodeOfKeyId?_eq_some_iff]

/-- The last of four nodes is a child of its own, and so its own parent. -/
theorem links_undo_each_other_looped :
    ∃ t, Trie.ofBytes loopedBytes = .ok t ∧ t.degrees.length < UInt32.size ∧
      t.terminals.length < UInt32.size ∧ 3 ∈ children t 3 ∧ 3 ≠ Trie.root ∧
      parent? t 3 = some 3 ∧ (children t 3).count 3 = 1 := by
  obtain ⟨t, hopen, hdegrees, hterminals, hchildren⟩ :
      ∃ t, Trie.ofBytes loopedBytes = .ok t ∧ t.degrees.length < UInt32.size ∧
        t.terminals.length < UInt32.size ∧ t.children 3 = [1, 2, 3] :=
    ⟨_, rfl, by decide, by decide, by cbv⟩
  have hchild : 3 ∈ children t 3 := by
    rw [children_eq (numNodes_lt hdegrees), hchildren]
    decide
  obtain ⟨-, -, hup, hdown, -⟩ := links_undo_each_other hopen hdegrees hterminals
  have hparent := hup 3 3 hchild (by decide)
  exact ⟨t, hopen, hdegrees, hterminals, hchild, by decide, hparent, hdown 3 3 hparent⟩

end Guarded

end KanaKanji.Louds
