import Mathlib
import KanaKanji.Proofs.Bits.BlockDirectory
import KanaKanji.Proofs.Louds.KeyIds
import KanaKanji.Proofs.Louds.RoundTrip

/-!
# A trie on directories of blocks

A stored trie is walked on two bit vectors, which keep a count for each byte. A machine keeps
directories of blocks for them, and all that it asks these are five questions about a node
(`BlockTrie`): whether a key ends there, the id of this key, the node of a key id, the children,
and the node above. The children are found one by one: the first has the number of ones in front of
its bit, and each further one the next number.

The directories count in 32 bits. They are made for every trie whose nodes and keys can be counted
so (`exists_standsFor_of_ofImage`): these are the ones among its bits, and it does not matter how
many bits there are. Then each answer is that of the trie (`StandsFor.links_agree`). What was built
from keys has fewer nodes than that, and not more keys (`exists_standsFor_of_build`).
-/

set_option autoImplicit false

namespace KanaKanji.Louds

open KanaKanji.Guarded Outcomes

/-- The areas of a trie with directories of blocks for its bits. -/
structure BlockTrie where
  degrees : BlockDirectory
  terminals : BlockDirectory
  numNodes : ℕ

namespace BlockTrie

section Walks

/-- The directories for an image. -/
def ofImage (image : Image) : Except Fault BlockTrie := do
  let degrees ← BlockDirectory.ofBytes image.degrees
  let terminals ← BlockDirectory.ofBytes image.terminals
  return ⟨degrees, terminals, image.labels.length⟩

variable (b : BlockTrie)

/-- Whether a key ends at the node. -/
def isTerminal (node : ℕ) : Except Fault Bool :=
  if node < b.numNodes then b.terminals.get node else .ok false

/-- The id of the key that ends at the node. -/
def keyId? (node : ℕ) : Except Fault (Option ℕ) := do
  let terminal ← b.isTerminal node
  if terminal then
    let keyId ← b.terminals.rank1 node
    return some keyId
  else return none

/-- The node at which the key with this id ends. -/
def nodeOfKeyId? (keyId : ℕ) : Except Fault (Option ℕ) := do
  let found ← b.terminals.select1 keyId
  return found.filter (· < b.numNodes)

/-- The position of the degree bit for the first child of a node, past the end if there is no such
node. -/
def firstChildBit (node : ℕ) : Except Fault ℕ := do
  let found ← b.degrees.select0 node
  match found with
  | some before => return before + 1
  | none => return b.degrees.numBits

/-- The nodes for the ones in a row from a position on, where the first has a number already or is
numbered by the ones in front of it. -/
def childrenFrom (bit : ℕ) (number : Option ℕ) : Except Fault (List ℕ) :=
  if bit < b.degrees.numBits then do
    let one ← b.degrees.get bit
    if one then
      let child ← match number with
        | some child => .ok child
        | none => b.degrees.rank1 bit
      let behind ← childrenFrom (bit + 1) (some (child + 1))
      return child :: behind
    else return []
  else .ok []
termination_by b.degrees.numBits - bit

/-- The children of a node, in the order of their labels. -/
def children (node : ℕ) : Except Fault (List ℕ) := do
  let bit ← b.firstChildBit node
  b.childrenFrom bit none

/-- The node above a node; the root has none. -/
def parent? (node : ℕ) : Except Fault (Option ℕ) :=
  if node = Trie.root ∨ b.numNodes ≤ node then .ok none
  else do
    let found ← b.degrees.select1 node
    match found with
    | none => return none
    | some bit =>
      let zeros ← b.degrees.rank0 bit
      if zeros = 0 then return none else return some (zeros - 1)

end Walks

/-- The directories have the bits of the trie. -/
structure StandsFor (b : BlockTrie) (t : Trie) : Prop where
  degrees : b.degrees.Answers t.degrees
  terminals : b.terminals.Answers t.terminals
  numNodes : b.numNodes = t.numNodes

/-! ### Links -/

namespace StandsFor

variable {b : BlockTrie} {t : Trie} (hb : b.StandsFor t)

include hb

theorem isTerminal_eq_ok (node : ℕ) : b.isTerminal node = .ok (t.isTerminal node) := by
  rw [isTerminal, Trie.isTerminal, hb.numNodes, hb.terminals.get]
  by_cases hnode : node < t.numNodes
  · rw [if_pos hnode, decide_eq_true hnode, Bool.true_and]
  · rw [if_neg hnode, decide_eq_false hnode, Bool.false_and]

theorem keyId?_eq_ok (node : ℕ) : b.keyId? node = .ok (t.keyId? node) := by
  rw [keyId?, hb.isTerminal_eq_ok, ok_bind, hb.terminals.rank1, Trie.keyId?]
  split <;> rfl

theorem nodeOfKeyId?_eq_ok (keyId : ℕ) : b.nodeOfKeyId? keyId = .ok (t.nodeOfKeyId? keyId) := by
  rw [nodeOfKeyId?, hb.terminals.select1, ok_bind, hb.numNodes]
  rfl

theorem firstChildBit_eq_ok (node : ℕ) : b.firstChildBit node = .ok (t.firstChildBit node) := by
  rw [firstChildBit, hb.degrees.select0, ok_bind, hb.degrees.numBits, Trie.firstChildBit]
  cases t.degrees.select0 node <;> rfl

/-- Ones in a row get numbers in a row. -/
theorem childrenFrom_some_eq_ok (bit number : ℕ) :
    b.childrenFrom bit (some number) = .ok (List.range' number (t.degrees.runOfOnes bit)) := by
  fun_induction t.degrees.runOfOnes bit generalizing number with
  | case1 bit hone hlt ih =>
    rw [childrenFrom, if_pos (hlt.trans_eq hb.degrees.numBits.symm), hb.degrees.get, ok_bind,
      if_pos hone]
    dsimp only
    rw [ok_bind, ih, List.range'_succ]
    rfl
  | case2 bit hzero =>
    rw [childrenFrom, hb.degrees.get, ok_bind, if_neg hzero]
    split <;> rfl

/-- The first number counts the ones in front of the row. -/
theorem childrenFrom_none_eq_ok (bit : ℕ) :
    b.childrenFrom bit none =
      .ok (List.range' (t.degrees.rank1 bit) (t.degrees.runOfOnes bit)) := by
  rw [← hb.childrenFrom_some_eq_ok, childrenFrom, childrenFrom, hb.degrees.rank1]

theorem children_eq_ok (node : ℕ) : b.children node = .ok (t.children node) := by
  rw [children, hb.firstChildBit_eq_ok, ok_bind, hb.childrenFrom_none_eq_ok]
  rfl

theorem parent?_eq_ok (node : ℕ) : b.parent? node = .ok (t.parent? node) := by
  rw [parent?, hb.numNodes, hb.degrees.select1, ok_bind, Trie.parent?]
  split
  · rfl
  · cases t.degrees.select1 node with
    | none => rfl
    | some bit =>
      rw [Option.bind_some]
      dsimp only
      rw [hb.degrees.rank0, ok_bind]
      split <;> rfl

/-- Every answer about a node is that of the trie, and is found without a fault. -/
theorem links_agree (node : ℕ) :
    b.isTerminal node = .ok (t.isTerminal node) ∧ b.keyId? node = .ok (t.keyId? node) ∧
      b.nodeOfKeyId? node = .ok (t.nodeOfKeyId? node) ∧
      b.children node = .ok (t.children node) ∧ b.parent? node = .ok (t.parent? node) :=
  ⟨hb.isTerminal_eq_ok node, hb.keyId?_eq_ok node, hb.nodeOfKeyId?_eq_ok node,
    hb.children_eq_ok node, hb.parent?_eq_ok node⟩

end StandsFor

/-! ### Directories of a trie -/

/-- If nodes and keys can be counted in 32 bits, the directories are made. -/
theorem exists_standsFor_of_ofImage {image : Image} {t : Trie} (hopen : Trie.ofImage image = .ok t)
    (hnodes : t.numNodes < UInt32.size) (hkeys : t.numKeys < UInt32.size) :
    ∃ b, ofImage image = .ok b ∧ b.StandsFor t := by
  obtain ⟨hdegrees, hterminals, hlabels⟩ := Trie.areas_of_ofImage hopen
  rw [Trie.numNodes, ← t.ones_degrees, hdegrees] at hnodes
  rw [Trie.numKeys, hterminals] at hkeys
  obtain ⟨hmade, hanswers⟩ := BlockDirectory.ofBytes_eq_ok_counted hnodes
  obtain ⟨hmade', hanswers'⟩ := BlockDirectory.ofBytes_eq_ok_counted hkeys
  refine ⟨⟨.counted image.degrees, .counted image.terminals, image.labels.length⟩, ?_, ?_⟩
  · rw [ofImage, hmade, ok_bind, hmade']
    rfl
  · rw [← hdegrees] at hanswers
    rw [← hterminals] at hanswers'
    exact ⟨hanswers, hanswers', by rw [Trie.numNodes, hlabels, List.size_toArray]⟩

/-- There are not more keys than nodes in what was built. -/
theorem exists_standsFor_of_build {keys : List Key} {bytes : List UInt8}
    (hbytes : build keys = .ok bytes) :
    ∃ b t, ofImage (imageOf keys) = .ok b ∧ Trie.ofBytes bytes = .ok t ∧ t.Stores keys ∧
      b.StandsFor t := by
  obtain ⟨t, hopen, ht⟩ := exists_stores_of_imageOf keys
  have hlabels := (toBytes_eq_ok_iff.mp hbytes).1.2.2
  rw [length_labels_imageOf, ← Trie.numNodes_eq_length ht] at hlabels
  have hkeys := (Trie.numKeys_le_numNodes ht).trans_lt hlabels
  obtain ⟨b, hmade, hb⟩ := exists_standsFor_of_ofImage hopen hlabels hkeys
  exact ⟨b, t, hmade, (ofBytes_eq_ofImage_of_build hbytes).trans hopen, ht, hb⟩

end BlockTrie

end KanaKanji.Louds
