import KanaKanji.Louds.Image

/-!
# Building a trie

A trie holds the distinct prefixes of its keys as nodes. A node is represented by what is left of
the keys below it: a sorted list of distinct byte strings, in which the empty one says that a key
ends at the node. The nodes are taken level by level, and each gives one bit of `terminals`, one
label for each child, and its number of children in unary: a one for each, then a zero. The root has
a label too, a zero byte, and stands below a node of its own, written `10`.
-/

set_option autoImplicit false

namespace KanaKanji.Louds

/-- A key: a string of bytes. -/
abbrev Key := List UInt8

/-- What is left of the keys below a node, sorted and distinct. -/
abbrev Node := List Key

/-- The keys in ascending order, each once. -/
def sortedKeys (keys : List Key) : List Key :=
  (keys.mergeSort fun a b ↦ decide (a ≤ b)).eraseReps

namespace Node

/-- Whether a key ends at the node. -/
def isTerminal (node : Node) : Bool := node.head? == some []

/-- The children of the node, each with the label of the edge to it: neighbouring keys that go on
with the same byte belong to the same child. -/
def branches : Node → List (UInt8 × Node)
  | [] => []
  | [] :: rest => branches rest
  | (label :: tail) :: rest =>
    match branches rest with
    | [] => [(label, [tail])]
    | (next, child) :: more =>
      if label = next then (label, tail :: child) :: more
      else (label, [tail]) :: (next, child) :: more

/-- The labels of the edges to the children. -/
def childLabels (node : Node) : List UInt8 := node.branches.map (·.1)

/-- The children in the order of their labels. -/
def children (node : Node) : List Node := node.branches.map (·.2)

/-- The number of children in unary. -/
def degreeBits (node : Node) : List Bool := List.replicate node.children.length true ++ [false]

end Node

/-- The nodes of a level and of the levels below it, as many levels as asked for. -/
def levelOrder : Nat → List Node → List Node
  | 0, _ => []
  | depth + 1, level => level ++ levelOrder depth (level.flatMap Node.children)

/-- The nodes of the trie, level by level. No level lies deeper than the longest key. -/
def nodes (keys : List Key) : List Node :=
  levelOrder ((keys.map List.length).foldl max 0 + 1) [sortedKeys keys]

/-- The bits of the unary degrees, those of the node above the root in front. -/
def degreeBits (nodes : List Node) : List Bool :=
  [true, false] ++ nodes.flatMap Node.degreeBits

/-- The image of the trie with these keys, given in any order and any number of times. -/
def imageOf (keys : List Key) : Image :=
  let all := nodes keys
  { degrees := (BitStream.empty.pushAll (degreeBits all)).padTo32.toBytes
    terminals := (BitStream.empty.pushAll (all.map Node.isTerminal)).padTo32.toBytes
    labels := 0 :: all.flatMap Node.childLabels }

/-- The stored form of the trie with these keys. -/
def build (keys : List Key) : Except Error (List UInt8) := (imageOf keys).toBytes

end KanaKanji.Louds
