import KanaKanji.Bits.Vector
import KanaKanji.Louds.Build

/-!
# Walking a stored trie

A stored trie is walked without being taken apart. Nodes are numbered level by level from the root,
which is node 0; key ids number the nodes at which keys end, in the same order. The children of a
node are the ones between two zeros of the degree bits, so they have consecutive numbers; the way up
counts the zeros before the one that stands for a node.

`Trie.ofImage` accepts an image whose degree bits have a one for each label and whose terminal bits
cover all nodes. Both are fields of the type, so every walk stays within the labels, whatever else
the bits say.
-/

set_option autoImplicit false

namespace KanaKanji.Louds

/-- A stored trie, ready to be walked. -/
structure Trie where
  degrees : BitVector
  terminals : BitVector
  labels : Array UInt8
  ones_degrees : degrees.ones = labels.size
  size_labels_le : labels.size ≤ terminals.length

namespace Trie

/-- The trie of an image, which has to have as many ones as labels and a terminal bit for each
label. -/
def ofImage (image : Image) : Except Error Trie :=
  let degrees := BitVector.ofBytes image.degrees
  let terminals := BitVector.ofBytes image.terminals
  let labels := image.labels.toArray
  if hones : degrees.ones = labels.size then
    if hsize : labels.size ≤ terminals.length then
      .ok ⟨degrees, terminals, labels, hones, hsize⟩
    else .error .terminalsTooShort
  else .error .edgeCountMismatch

/-- The areas of an image are those of its trie. -/
theorem areas_of_ofImage {image : Image} {t : Trie} (hopen : ofImage image = .ok t) :
    t.degrees = .ofBytes image.degrees ∧ t.terminals = .ofBytes image.terminals ∧
      t.labels = image.labels.toArray := by
  rw [ofImage] at hopen
  split at hopen
  case isFalse => cases hopen
  split at hopen
  case isFalse => cases hopen
  rw [← Except.ok.inj hopen]
  exact ⟨rfl, rfl, rfl⟩

/-- The trie that the bytes store. -/
def ofBytes (bytes : List UInt8) : Except Error Trie := Image.ofBytes bytes >>= ofImage

/-- The number of the root. -/
def root : Nat := 0

/-- The number of nodes, the root included. -/
def numNodes (t : Trie) : Nat := t.labels.size

/-- The number of keys. -/
def numKeys (t : Trie) : Nat := t.terminals.ones

/-- Whether a key ends at the node. -/
def isTerminal (t : Trie) (node : Nat) : Bool := node < t.numNodes && t.terminals.get node

/-- The label of the edge into a node. -/
def label? (t : Trie) (node : Nat) : Option UInt8 := t.labels[node]?

/-- The label of the edge into a node of the trie. -/
def label (t : Trie) (node : Nat) : UInt8 := t.labels.getD node 0

/-- The id of the key that ends at the node. -/
def keyId? (t : Trie) (node : Nat) : Option Nat :=
  if t.isTerminal node then some (t.terminals.rank1 node) else none

/-- The node at which the key with this id ends. -/
def nodeOfKeyId? (t : Trie) (keyId : Nat) : Option Nat :=
  (t.terminals.select1 keyId).filter (· < t.numNodes)

/-- The position of the degree bit for the first child of a node, past the end if there is no such
node. -/
def firstChildBit (t : Trie) (node : Nat) : Nat :=
  match t.degrees.select0 node with
  | some before => before + 1
  | none => t.degrees.length

/-- The children of a node, in the order of their labels. -/
def children (t : Trie) (node : Nat) : List Nat :=
  let bit := t.firstChildBit node
  List.range' (t.degrees.rank1 bit) (t.degrees.runOfOnes bit)

/-- The child that the label leads to. Labels ascend, so the search ends at a greater one. -/
def child? (t : Trie) (node : Nat) (label : UInt8) : Option Nat :=
  ((t.children node).takeWhile (t.label · ≤ label)).find? (t.label · == label)

/-- The node above a node; the root has none. -/
def parent? (t : Trie) (node : Nat) : Option Nat :=
  if node = root ∨ t.numNodes ≤ node then none
  else (t.degrees.select1 node).bind fun bit ↦
    let zeros := t.degrees.rank0 bit
    if zeros = 0 then none else some (zeros - 1)

/-- The node that a string of bytes leads to from a node. -/
def descend? (t : Trie) (node : Nat) : Key → Option Nat
  | [] => some node
  | b :: rest => (t.child? node b).bind fun child ↦ t.descend? child rest

/-- The node that a string of bytes leads to from the root. -/
def traverse? (t : Trie) (key : Key) : Option Nat := t.descend? root key

/-- The node that a key leads to, if a key of the trie ends there. -/
def exactMatch? (t : Trie) (key : Key) : Option Nat := (t.traverse? key).filter t.isTerminal

/-- The labels on the way from the root to a node, in front of what is already spelled. A way up
that does not lead to a smaller number has no end and spells nothing. -/
def spellUp (t : Trie) (node : Nat) (spelled : Key) : Option Key :=
  if node = root then some spelled
  else
    match t.parent? node with
    | none => none
    | some parent =>
      if _h : parent < node then t.spellUp parent (t.label node :: spelled) else none
termination_by node

/-- The labels on the way from the root to a node. -/
def reverseLookup? (t : Trie) (node : Nat) : Option Key :=
  if node < t.numNodes then t.spellUp node [] else none

/-- The key with an id. -/
def reverseLookupKeyId? (t : Trie) (keyId : Nat) : Option Key :=
  (t.nodeOfKeyId? keyId).bind t.reverseLookup?

end Trie

end KanaKanji.Louds
